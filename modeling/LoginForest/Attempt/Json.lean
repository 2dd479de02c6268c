/-
  Login attempts as JSON records.
-/
import LoginForest.Attempt.Basic
import LoginForest.Error
import LoginForest.Json.Decode
import LoginForest.Json.Encode
import LoginForest.Time.Format
import LoginForest.Time.Reading

namespace LoginForest

open Json (Node Value)

/-- A timestamp inside a JSON document. -/
def Time.Timestamp.ofNode? (n : Node) : Option Time.Timestamp :=
  n.text?.bind Time.Timestamp.ofJsonText?

namespace Attempt

def toValue (a : Attempt) : Value :=
  .record [
    ("id", .text a.id),
    ("user_id", .optional .text a.user),
    ("success", .bool a.success),
    ("ip_address", .optional .text a.address),
    ("country", .optional .text a.country),
    ("city", .optional .text a.city),
    ("asn", .optional .text a.network),
    ("latitude", .optional .real a.latitude),
    ("longitude", .optional .real a.longitude),
    ("created_at", .text a.time.zuluText)]

def ofNode? (n : Node) : Option Attempt := do
  let fields ← n.fields? false columnNames
  return {
    id := ← fields.required? "id" Node.text?
    user := ← fields.optional? "user_id" Node.text?
    success := ← fields.required? "success" Node.bool?
    address := ← fields.optional? "ip_address" Node.text?
    country := ← fields.optional? "country" Node.text?
    city := ← fields.optional? "city" Node.text?
    network := ← fields.optional? "asn" Node.text?
    latitude := ← fields.optional? "latitude" Node.real?
    longitude := ← fields.optional? "longitude" Node.real?
    time := ← fields.required? "created_at" Time.Timestamp.ofNode? }

def toJson (a : Attempt) : String := a.toValue.compact

def ofJson (s : String) : Except Error Attempt :=
  match (Json.parse? s).bind ofNode? with
  | some a => .ok a
  | none => .error .malformed

end Attempt

end LoginForest
