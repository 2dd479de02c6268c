/-
  A login attempt as it is scored.
-/
import LoginForest.Time.Timestamp

namespace LoginForest

/-- One login attempt. Everything but the identifier, the outcome and the time may be
unknown. -/
structure Attempt where
  id : String
  user : Option String
  success : Bool
  address : Option String
  country : Option String
  city : Option String
  network : Option String
  latitude : Option Float
  longitude : Option Float
  time : Time.Timestamp

/-- The columns of an export. -/
def columnNames : List String :=
  ["id", "user_id", "success", "ip_address", "country", "city", "asn", "latitude", "longitude",
    "created_at"]

/-- Attempts in the order of their instants; attempts at one instant keep their order. -/
def inTimeOrder (attempts : List Attempt) : List Attempt :=
  attempts.mergeSort fun a b => a.time.notAfter b.time

end LoginForest
