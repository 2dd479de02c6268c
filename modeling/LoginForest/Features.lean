/-
  The feature matrix of a list of login attempts. What a row is encoded with besides its own
  attempt, the medians and the frequencies, comes from the same list.
-/
import LoginForest.Address
import LoginForest.Attempt.Basic
import LoginForest.Matrix
import LoginForest.Stats.Frequency
import LoginForest.Stats.Quantile

namespace LoginForest

/-- The columns of the feature matrix. -/
def featureNames : List String :=
  ["latitude", "longitude", "hour", "day_of_week", "month", "success", "ip_numeric",
    "country_freq", "city_freq", "asn_freq"]

/-- A coordinate that is known and finite. -/
def finite? (x : Option Float) : Option Float := x.filter Float.isFinite

/-- The coordinates that stand in for unknown ones, and how frequent each text is. -/
structure Background where
  latitude : Float
  longitude : Float
  country : Frequency
  city : Frequency
  network : Frequency

/-- The median of the finite values; zero if there are none. -/
def middle (column : List (Option Float)) : Float :=
  (median (column.filterMap finite?)).getD (Number.ofNat 0)

def Background.ofAttempts (attempts : List Attempt) : Background where
  latitude := middle (attempts.map (·.latitude))
  longitude := middle (attempts.map (·.longitude))
  country := .ofColumn (attempts.map (·.country))
  city := .ofColumn (attempts.map (·.city))
  network := .ofColumn (attempts.map (·.network))

namespace Attempt

/-- The features of an attempt, in the order of `featureNames`. Hour, weekday and month are
those of the recorded offset. -/
def features [Elementary] (b : Background) (a : Attempt) : List Float :=
  [(finite? a.latitude).getD b.latitude,
    (finite? a.longitude).getD b.longitude,
    Number.ofNat a.time.clock.hour,
    Number.ofNat a.time.date.weekday,
    Number.ofNat a.time.date.month,
    Number.ofNat (if a.success then 1 else 0),
    (Address.feature a.address).1,
    b.country.share a.country,
    b.city.share a.city,
    b.network.share a.network]

/-- Which features of an attempt are stand-ins, and how its address was understood. -/
structure Recovery where
  latitude : Bool
  longitude : Bool
  address : Address.Status
deriving DecidableEq, Repr

def recovery [Elementary] (a : Attempt) : Recovery where
  latitude := (finite? a.latitude).isNone
  longitude := (finite? a.longitude).isNone
  address := (Address.feature a.address).2

/-- Whether any feature is a stand-in. -/
def Recovery.any (r : Recovery) : Bool := r.latitude || r.longitude || r.address != .parsed

@[simp] theorem length_features [Elementary] (b : Background) (a : Attempt) :
    (a.features b).length = featureNames.length := rfl

end Attempt

/-- The features of a list of attempts, a row each. -/
structure Features where
  matrix : Matrix Float
  recoveries : List Attempt.Recovery
  background : Background

namespace Features

def ofAttempts [Elementary] (attempts : List Attempt) : Features :=
  let b := Background.ofAttempts attempts
  { matrix :=
      { width := featureNames.length
        rows := attempts.map (·.features b)
        width_eq := by
          intro r hr
          obtain ⟨a, _, rfl⟩ := List.mem_map.mp hr
          exact a.length_features b }
    recoveries := attempts.map (·.recovery)
    background := b }

@[simp] theorem height_ofAttempts [Elementary] (attempts : List Attempt) :
    (ofAttempts attempts).matrix.height = attempts.length := by
  simp [ofAttempts, Matrix.height]

@[simp] theorem width_ofAttempts [Elementary] (attempts : List Attempt) :
    (ofAttempts attempts).matrix.width = featureNames.length := rfl

/-- Number of attempts with a stand-in. -/
def recovered (f : Features) : Nat := f.recoveries.countP (·.any)

end Features

end LoginForest
