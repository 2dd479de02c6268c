/-
  A bundle as a document: a record of the whole, written on one line, inside an envelope that
  says what it is and carries a checksum of it.
-/
import LoginForest.Attempt.Json
import LoginForest.Bundle.Basic
import LoginForest.Bundle.Checksum

namespace LoginForest

open Json (Node Value)

namespace Provenance

def toValue (p : Provenance) : Value :=
  .record [
    ("trained_at", .text p.trainedAt.zuluText),
    ("feature_names", .list (p.columns.map .text)),
    ("n_training_rows", .count p.trainingRows),
    ("n_estimators", .count p.trees),
    ("random_state", .optional .word p.seed),
    ("contamination", p.contamination.toValue),
    ("crate_version", .text p.version)]

def ofNode? (n : Node) : Option Provenance := do
  let fields ← n.fields? false
    ["trained_at", "feature_names", "n_training_rows", "n_estimators", "random_state",
      "contamination", "crate_version"]
  let trainedAt ← fields.required? "trained_at" Time.Timestamp.ofNode?
  return {
    trainedAt := trainedAt.toUtc
    columns := ← fields.required? "feature_names" (Node.list? Node.text?)
    trainingRows := ← fields.required? "n_training_rows" Node.count?
    trees := ← fields.required? "n_estimators" Node.count?
    seed := ← fields.optional? "random_state" Node.word?
    contamination := ← fields.required? "contamination" Contamination.ofNode?
    version := ← fields.required? "crate_version" Node.text?
    trainedAt_utc := trainedAt.offset_toUtc }

end Provenance

/-- What is around the document of a bundle. -/
structure Envelope where
  magic : String
  version : Nat
  checksum : UInt64
  payload : String
deriving DecidableEq, Repr

def bundleMagic : String := "LOGIN-IFOREST"

namespace Envelope

/-- The envelope of a document. -/
def around (payload : String) : Envelope where
  magic := bundleMagic
  version := bundleVersion
  checksum := Checksum.ofBytes (Bytes.ofText payload)
  payload := payload

def toJson (e : Envelope) : String :=
  Json.indented [
    ("magic", .text e.magic),
    ("format_version", .count e.version),
    ("checksum", .word e.checksum),
    ("payload", .text e.payload)]

def ofNode? (n : Node) : Option Envelope := do
  let fields ← n.fields? false ["magic", "format_version", "checksum", "payload"]
  return {
    magic := ← fields.required? "magic" Node.text?
    version := ← fields.required? "format_version" (Node.countBelow? (Number.twoTo 32))
    checksum := ← fields.required? "checksum" Node.word?
    payload := ← fields.required? "payload" Node.text? }

end Envelope

namespace Bundle

def toValue (b : Bundle) : Value :=
  .record [
    ("metadata", b.provenance.toValue),
    ("scaler", b.scaling.toValue),
    ("forest", b.forest.toValue)]

def ofNode? (n : Node) : Option Bundle := do
  let fields ← n.fields? false ["metadata", "scaler", "forest"]
  return {
    provenance := ← fields.required? "metadata" Provenance.ofNode?
    scaling := ← fields.required? "scaler" Scaling.ofNode?
    forest := ← fields.required? "forest" Forest.ofNode? }

/-- The document inside the envelope. -/
def payload (b : Bundle) : String := b.toValue.compact

/-- Read the document without its envelope. -/
def ofPayload (s : String) : Except Error Bundle :=
  match (Json.parse? s).bind ofNode? with
  | some b => .ok b
  | none => .error .malformed

def toJson (b : Bundle) : String := (Envelope.around b.payload).toJson

/-- Take the bundle out of its envelope: first what it is, then the version, the checksum, the
document, and at last whether scaling and forest fit together. -/
def ofEnvelope (e : Envelope) : Except Error Bundle :=
  if e.magic ≠ bundleMagic then .error (.notBundle e.magic)
  else if bundleVersion < e.version then .error (.version e.version)
  else if Checksum.ofBytes (Bytes.ofText e.payload) ≠ e.checksum then .error .checksum
  else do
    let b ← ofPayload e.payload
    if b.scaling.width ≠ b.forest.width then .error (.columns b.forest.width b.scaling.width)
    else return b

def ofParsed (n : Option Node) : Except Error Bundle :=
  match n.bind Envelope.ofNode? with
  | some e => ofEnvelope e
  | none => .error .malformed

def ofJson (s : String) : Except Error Bundle := ofParsed (Json.parse? s)

/-- The bundle in a file's content; `none` when there is no such file. -/
def load (content : Option Bytes) : Except Error Bundle :=
  match content with
  | none => .error .file
  | some b => ofParsed (Json.parseBytes? b)

end Bundle

end LoginForest
