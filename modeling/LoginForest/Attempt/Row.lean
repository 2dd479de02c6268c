/-
  A row of an export, all texts, and the login attempt it describes. A field that cannot be
  read takes a stand-in and is reported; it disturbs no other field.
-/
import LoginForest.Address
import LoginForest.Attempt.Basic
import LoginForest.Error
import LoginForest.Json.Value
import LoginForest.Text.Blank
import LoginForest.Time.Reading

namespace LoginForest

/-- A row as read from a file; a missing text is `none`. -/
structure Row where
  id : Option String
  user : Option String
  success : Option String
  address : Option String
  country : Option String
  city : Option String
  network : Option String
  latitude : Option String
  longitude : Option String
  time : Option String
deriving DecidableEq, Repr

namespace Row

/-- The row whose texts are looked up by column name. -/
def ofColumns (text : String → Option String) : Row where
  id := text "id"
  user := text "user_id"
  success := text "success"
  address := text "ip_address"
  country := text "country"
  city := text "city"
  network := text "asn"
  latitude := text "latitude"
  longitude := text "longitude"
  time := text "created_at"

/-- The text of a JSON value in a row: a string trimmed, any other value as it is written. -/
def valueText : Json.Value → Option String
  | .null => none
  | .text s => Text.filled? s
  | v => some v.compact

/-- The row of a JSON record; members with other names are ignored. -/
def ofValue? : Json.Value → Option Row
  | .record members => some (ofColumns fun column => (members.lookup column).bind valueText)
  | _ => none

/-- The identifier, or one made from the number of the row. -/
def readId (index : Nat) : Option String → String × List Error
  | some id => (id, [])
  | none => ("row-" ++ decimalText index, [.field "id" "" .missingId])

def readTime : Option String → Time.Timestamp × List Error
  | none => (.epoch, [.field "created_at" "" .missingTime])
  | some s =>
    match Time.Timestamp.read? s with
    | some t => (t, [])
    | none => (.epoch, [.field "created_at" s .badTime])

/-- Yes or no in words that the case of letters does not change. -/
def boolean? (word : String) : Option Bool :=
  if ["true", "t", "1", "yes", "y"].contains word then some true
  else if ["false", "f", "0", "no", "n"].contains word then some false
  else none

def readSuccess : Option String → Bool × List Error
  | none => (false, [])
  | some s =>
    match boolean? (Text.lowered s) with
    | some b => (b, [])
    | none => (false, [.field "success" (Text.lowered s) .notBoolean])

/-- A coordinate is a finite number. -/
def coordinate? (s : String) : Option Float :=
  match Number.read? s with
  | some x => if x.isFinite then some x else none
  | none => none

def readCoordinate (column : String) : Option String → Option Float × List Error
  | none => (none, [])
  | some s =>
    match coordinate? s with
    | some x => (some x, [])
    | none => (none, [.field column s .notFinite])

/-- The attempt that the row describes, and an error for every field that was replaced. -/
def interpret (index : Nat) (r : Row) : Attempt × List Error :=
  let (id, idErrors) := readId index r.id
  let (time, timeErrors) := readTime r.time
  let (success, successErrors) := readSuccess r.success
  let (latitude, latitudeErrors) := readCoordinate "latitude" r.latitude
  let (longitude, longitudeErrors) := readCoordinate "longitude" r.longitude
  ({ id, success, latitude, longitude, time
     user := r.user
     address := r.address.map Address.normalize
     country := r.country
     city := r.city
     network := r.network },
    idErrors ++ timeErrors ++ successErrors ++ latitudeErrors ++ longitudeErrors)

end Row

/-- The attempts that rows describe, numbered from zero. -/
def interpretRows (rows : List Row) : List Attempt :=
  rows.mapIdx fun index r => (r.interpret index).1

end LoginForest
