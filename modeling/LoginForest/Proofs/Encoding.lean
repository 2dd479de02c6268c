/-
  What the features of a list of attempts are. Each attempt of the list has a row and an account of
  its stand-ins at its own place (`Features.IsEncodingOf`). A coordinate that is not given is
  the middle of those that are; times are read off the local clock and calendar; and a text counts
  as often as it occurs in the list, by the number of times that the most frequent text occurs.
-/
import LoginForest.Proofs.Scoring.Run
import LoginForest.Proofs.Stats.Frequency
import LoginForest.Proofs.Stats.Middle
import LoginForest.Proofs.Time.Weekday

namespace LoginForest

open Number

/-- The entry of a row under the name of a feature. -/
def feature? (row : List Float) (name : String) : Option Float := row[featureNames.idxOf name]?

/-! ## Coordinates -/

/-- The entry for a coordinate: the coordinate if it is finite, or else the middle of those of the
column that are. -/
structure IsCoordinate (column : List (Option Float)) (given entry : Option Float)
    (replaced : Bool) : Prop where
  kept : ∀ x, given = some x → x.isFinite → entry = some x ∧ replaced = false
  replaced : (∀ x, given = some x → ¬ x.isFinite) → replaced = true ∧
    ∃ m, entry = some m ∧ IsMiddle (column.reduceOption.filter Float.isFinite) m

theorem finite?_of_isFinite {x : Float} (h : x.isFinite) : finite? (some x) = some x :=
  Option.filter_some_pos h

theorem finite?_eq_none {given : Option Float} (h : ∀ x, given = some x → ¬ x.isFinite) :
    finite? given = none := by
  cases given with
  | none => rfl
  | some x => exact Option.filter_some_neg (Bool.eq_false_iff.mpr (h x rfl))

theorem isCoordinate {column : List (Option Float)} (hlength : column.length ≤ 2 ^ 64)
    (given : Option Float) : IsCoordinate column given
      (some ((finite? given).getD (middle column))) (finite? given).isNone := by
  constructor
  · rintro x rfl hx
    rw [finite?_of_isFinite hx]
    exact ⟨rfl, rfl⟩
  · intro h
    rw [finite?_eq_none h]
    exact ⟨rfl, _, rfl, isMiddle_middle hlength⟩

/-! ## Times -/

namespace Time

/-- The entries for a time, by its local clock and calendar. -/
structure IsLocalTime (t : Timestamp) (hour weekday month : Option Float) : Prop where
  hour : ∃ n < 24, hour = some (ofNat n) ∧ (n : Int) = t.localSeconds % 86400 / 3600
  weekday : ∃ n < 7, weekday = some (ofNat n) ∧ (n : Int) = (t.localSeconds / 86400 + 3) % 7
  month : ∃ d : Date, d.dayNumber = t.localSeconds / 86400 ∧ 1 ≤ d.month ∧ d.month ≤ 12 ∧
    month = some (ofNat d.month)

theorem isLocalTime (t : Timestamp) : IsLocalTime t (some (ofNat t.clock.hour))
    (some (ofNat t.date.weekday)) (some (ofNat t.date.month)) where
  hour := ⟨_, t.clock.hour_lt, rfl, t.hour_eq⟩
  weekday := ⟨_, t.date.weekday_lt, rfl, t.weekday_eq⟩
  month := ⟨t.date, t.dayNumber_date, t.date.month_pos, t.date.month_le, rfl⟩

end Time

/-! ## Addresses -/

namespace Address

/-- The entry for an address, and how the address was understood. -/
structure IsFeature (address : Option String) (entry : Option Float) (status : Status) : Prop where
  missing : status = .missing ↔ address = none ∨ address = some ""
  parsed : status = .parsed ↔ ∃ s a, address = some s ∧ read? s = some a
  sentinel : status ≠ .parsed → entry = some (ofNat 0)

theorem read?_empty : read? "" = none := by decide

theorem isFeature [Elementary] (address : Option String) :
    IsFeature address (some (feature address).1) (feature address).2 := by
  cases address with
  | none => exact ⟨by simp [feature], by simp [feature], fun _ => rfl⟩
  | some s =>
    rw [feature]
    by_cases h : s = ""
    · subst h
      exact ⟨by simp, by simp [read?_empty], fun _ => rfl⟩
    · rw [if_neg (mt String.isEmpty_iff.mp h)]
      cases hread : read? s with
      | none => exact ⟨by simp [h], by simp [hread], fun _ => rfl⟩
      | some a => exact ⟨by simp [h], by simp [hread], fun h => absurd rfl h⟩

end Address

/-! ## Texts -/

namespace Frequency

/-- A table with one entry for each text of a column, the number of its occurrences. -/
structure IsTable (column : List (Option String)) (f : Frequency) : Prop where
  nodup : (f.counts.map Prod.fst).Nodup
  mem_iff : ∀ s n, (s, n) ∈ f.counts ↔ some s ∈ column ∧ n = column.count (some s)
  size : f.size = column.reduceOption.toFinset.card

/-- The entry for a text: its occurrences over the most that a text of the column has. -/
structure IsShareIn (column : List (Option String)) (text : Option String) (entry : Option Float) :
    Prop where
  quotient : ∀ s, text = some s →
    entry = some (ofNat (column.count (some s)) / ofNat (largestCount column))
  most : ∀ s, text = some s → column.count (some s) = largestCount column →
    entry = some (ofNat 1)
  zero_iff : entry = some (ofNat 0) ↔ text = none

variable {column : List (Option String)}

theorem isTable (column : List (Option String)) : IsTable column (ofColumn column) :=
  ⟨nodup_counts column, fun _ _ => mem_counts, size_ofColumn column⟩

theorem isShareIn {text : Option String} (hlength : column.length ≤ 2 ^ 64) (h : text ∈ column) :
    IsShareIn column text (some ((ofColumn column).share text)) := by
  cases text with
  | none =>
    refine ⟨fun s hs => ?_, fun s hs => ?_, iff_of_true rfl rfl⟩
    · cases hs
    · cases hs
  | some s =>
    have hpos := share_pos hlength h
    refine ⟨fun s' hs => ?_, fun s' hs hmost => ?_,
      iff_of_false (fun hzero => ?_) (Option.some_ne_none s)⟩
    · obtain rfl := Option.some.inj hs
      rw [share_some h]
    · obtain rfl := Option.some.inj hs
      rw [share_most hlength h hmost]
    · rw [Option.some.inj hzero, value_zero] at hpos
      exact lt_irrefl 0 hpos

end Frequency

/-! ## Rows -/

/-- The row of an attempt among the attempts of a list, and the account of its stand-ins. -/
structure Attempt.IsEncoded (attempts : List Attempt) (a : Attempt) (row : List Float)
    (r : Recovery) : Prop where
  latitude : IsCoordinate (attempts.map (·.latitude)) a.latitude (feature? row "latitude")
    r.latitude
  longitude : IsCoordinate (attempts.map (·.longitude)) a.longitude (feature? row "longitude")
    r.longitude
  time : Time.IsLocalTime a.time (feature? row "hour") (feature? row "day_of_week")
    (feature? row "month")
  success : feature? row "success" = some (ofNat (if a.success then 1 else 0))
  address : Address.IsFeature a.address (feature? row "ip_numeric") r.address
  country : Frequency.IsShareIn (attempts.map (·.country)) a.country (feature? row "country_freq")
  city : Frequency.IsShareIn (attempts.map (·.city)) a.city (feature? row "city_freq")
  network : Frequency.IsShareIn (attempts.map (·.network)) a.network (feature? row "asn_freq")

theorem Attempt.isEncoded [Elementary] {attempts : List Attempt}
    (hlength : attempts.length ≤ 2 ^ 64) {a : Attempt} (h : a ∈ attempts) :
    IsEncoded attempts a (a.features (.ofAttempts attempts)) a.recovery where
  latitude := isCoordinate (by rwa [List.length_map]) a.latitude
  longitude := isCoordinate (by rwa [List.length_map]) a.longitude
  time := Time.isLocalTime a.time
  success := rfl
  address := Address.isFeature a.address
  country := Frequency.isShareIn (by rwa [List.length_map]) (List.mem_map_of_mem h)
  city := Frequency.isShareIn (by rwa [List.length_map]) (List.mem_map_of_mem h)
  network := Frequency.isShareIn (by rwa [List.length_map]) (List.mem_map_of_mem h)

/-- The features of a list: a row and an account for each attempt at its own place, with tables of
the texts of the list. -/
structure Features.IsEncodingOf (attempts : List Attempt) (f : Features) : Prop where
  height : f.matrix.height = attempts.length
  width : f.matrix.width = 10
  length_recoveries : f.recoveries.length = attempts.length
  rows : ∀ (i : Nat) (a : Attempt), attempts[i]? = some a → ∃ row r,
    f.matrix.rows[i]? = some row ∧ f.recoveries[i]? = some r ∧ row.length = 10 ∧
      a.IsEncoded attempts row r
  country : Frequency.IsTable (attempts.map (·.country)) f.background.country
  city : Frequency.IsTable (attempts.map (·.city)) f.background.city
  network : Frequency.IsTable (attempts.map (·.network)) f.background.network

/-- Features are as they are meant to be, by a calendar that numbers the days one by one from the
first of 1970, a Thursday. A word of 64 bits counts the attempts. -/
theorem Features.isEncodingOf_ofAttempts [Elementary] {attempts : List Attempt}
    (hlength : attempts.length ≤ 2 ^ 64) :
    (ofAttempts attempts).IsEncodingOf attempts ∧
      Time.Timestamp.epoch.date.dayNumber = 0 ∧ Time.Timestamp.epoch.date.weekday = 3 ∧
      ∀ d d' : Time.Date, d.next.dayNumber = d.dayNumber + 1 ∧
        d.next.weekday = (d.weekday + 1) % 7 ∧ (d.dayNumber = d'.dayNumber → d = d') := by
  refine ⟨?_, by decide, by decide, fun d d' =>
    ⟨d.dayNumber_next, d.weekday_next, Time.Date.eq_of_dayNumber_eq⟩⟩
  constructor
  case height => exact height_ofAttempts attempts
  case width => rfl
  case length_recoveries => exact List.length_map _
  case rows =>
    intro i a ha
    refine ⟨a.features (.ofAttempts attempts), a.recovery, ?_, ?_, rfl,
      Attempt.isEncoded hlength (List.mem_of_getElem? ha)⟩
    · rw [ofAttempts, List.getElem?_map, ha, Option.map_some]
    · rw [ofAttempts, List.getElem?_map, ha, Option.map_some]
  case country => exact Frequency.isTable _
  case city => exact Frequency.isTable _
  case network => exact Frequency.isTable _

/-- Three attempts without coordinates, two of them from one country. -/
theorem Features.isEncodingOf_ofAttempts_twoCountries :
    let attempts := [{ Attempt.blank with country := some "DE" },
      { Attempt.blank with country := some "BG" }, { Attempt.blank with country := some "BG" }]
    ∃ row r, (ofAttempts attempts).matrix.rows[1]? = some row ∧
      (ofAttempts attempts).recoveries[1]? = some r ∧ feature? row "latitude" = some (ofNat 0) ∧
      r.latitude = true ∧ feature? row "country_freq" = some (ofNat 1) ∧
      feature? row "city_freq" = some (ofNat 0) ∧ r.address = .missing := by
  intro attempts
  have hlength : attempts.length ≤ 2 ^ 64 := by decide
  obtain ⟨hfeatures, -⟩ := isEncodingOf_ofAttempts hlength
  obtain ⟨row, r, hrow, hr, -, hencoded⟩ := hfeatures.rows 1 _ rfl
  obtain ⟨hreplaced, m, hm, hmiddle⟩ := hencoded.latitude.replaced fun x hx => nomatch hx
  rw [hmiddle.empty rfl] at hm
  exact ⟨row, r, hrow, hr, hm, hreplaced, hencoded.country.most "BG" rfl (by decide),
    hencoded.city.zero_iff.mpr rfl, hencoded.address.missing.mpr (.inl rfl)⟩

end LoginForest
