/-
  Reading typed data off a node. A record may be given by its members in any order, unknown
  ones skipped, or as a list of its fields in order.
-/
import LoginForest.Json.Value
import LoginForest.Json.Parser

namespace LoginForest.Json

def Node.text? : Node → Option String
  | .text t => t.decode?
  | _ => none

def Node.bool? : Node → Option Bool
  | .bool b => some b
  | _ => none

/-- A whole number of at most 64 bits, written without point and exponent. -/
def Node.count? : Node → Option Nat
  | .number n =>
    match n.toNumber? with
    | some (.count k) => some k
    | _ => none
  | _ => none

def Node.word? (n : Node) : Option UInt64 := n.count?.map UInt64.ofNat

def Node.countBelow? (bound : Nat) (n : Node) : Option Nat := n.count?.filter (· < bound)

def Node.real? : Node → Option Float
  | .number n =>
    match n.toNumber? with
    | some (.count k) => some (LoginForest.Number.ofNat k)
    | some (.negative k) => some (LoginForest.Number.nearest true k 1)
    | some (.real x) => some x
    | none => none
  | _ => none

/-- `null` for no value. -/
def Node.optional? (read : Node → Option α) : Node → Option (Option α)
  | .null => some none
  | n => (read n).map some

def Node.list? (read : Node → Option α) : Node → Option (List α)
  | .list items => items.mapM read
  | _ => none

/-- A pair written as a list of two. -/
def Node.pair? (read : Node → Option α) : Node → Option (α × α)
  | .list [a, b] => do return (← read a, ← read b)
  | _ => none

/-- Fields looked for in a record, filled in as its members are read. -/
abbrev Fields := List (String × Option Node)

/-- Put a member into its field; `none` when the field is already filled. Members that no
field has are skipped. -/
def Fields.fill? (key : String) (n : Node) : Fields → Option Fields
  | [] => some []
  | (name, given) :: rest =>
    if name = key then
      match given with
      | none => some ((name, some n) :: rest)
      | some _ => none
    else (Fields.fill? key n rest).map ((name, given) :: ·)

/-- Put list items into the fields in order. -/
def Fields.fillInOrder? : Fields → List Node → Option Fields
  | fields, [] => some fields
  | [], _ :: _ => none
  | (name, _) :: rest, n :: ns => (Fields.fillInOrder? rest ns).map ((name, some n) :: ·)

/-- The fields of a record with the given names. When it is written as a list, all fields
have to be there, unless it may be `short`. -/
def Node.fields? (short : Bool) (names : List String) : Node → Option Fields
  | .record members =>
    members.foldlM
      (fun fields (key, n) => do Fields.fill? (← key.decode?) n fields)
      (names.map (·, none))
  | .list items =>
    if short || items.length == names.length then
      Fields.fillInOrder? (names.map (·, none)) items
    else none
  | _ => none

/-- The node given for a field. -/
def Fields.find? (fields : Fields) (name : String) : Option Node :=
  (fields.lookup name).join

/-- A field that has to be given. -/
def Fields.required? (fields : Fields) (name : String) (read : Node → Option α) : Option α :=
  (fields.find? name).bind read

/-- A field that may be absent or null. -/
def Fields.optional? (fields : Fields) (name : String) (read : Node → Option α) :
    Option (Option α) :=
  match fields.find? name with
  | none => some none
  | some n => n.optional? read

/-- A field that takes `default` when absent. -/
def Fields.default? (fields : Fields) (name : String) (default : α) (read : Node → Option α) :
    Option α :=
  match fields.find? name with
  | none => some default
  | some n => read n

/-- One of several named cases: its name alone, or a record of one member that holds what
the case carries. -/
def Node.case? : Node → Option (String × Option Node)
  | .text t => t.decode?.map (·, none)
  | .record [(key, n)] => key.decode?.map (·, some n)
  | _ => none

end LoginForest.Json
