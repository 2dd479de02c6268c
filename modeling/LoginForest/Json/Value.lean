/-
  JSON values and their text, compact or indented.
-/
import LoginForest.Json.Node
import LoginForest.Number.Format
import LoginForest.Number.Reading

namespace LoginForest.Json

/-- A count of at most 64 bits, the negative of a positive count, or a binary64 number. -/
inductive Number where
  | count (n : Nat)
  | negative (n : Nat)
  | real (x : Float)

inductive Value where
  | null
  | bool (b : Bool)
  | number (n : Number)
  | text (s : String)
  | list (items : List Value)
  | record (members : List (String × Value))

/-- The number that a literal denotes; `none` when it is too large to be finite. A whole
number outside the range of counts is a real one, and so is minus zero. -/
def Numeral.toNumber? (n : Numeral) : Option Number :=
  let whole := LoginForest.Number.valueFrom 0 n.whole
  let real :=
    let places := n.places.getD []
    let x := LoginForest.Number.ofDecimal n.negative
      (LoginForest.Number.valueFrom whole places) (n.exponent.getD 0 - places.length)
    if x.isFinite then some (.real x) else none
  match n.places, n.exponent with
  | none, none =>
    if n.negative then
      if whole ≠ 0 ∧ whole ≤ LoginForest.Number.twoTo 63 then some (.negative whole) else real
    else if whole < LoginForest.Number.twoTo 64 then some (.count whole)
    else real
  | _, _ => real

/-- Set a member, keeping the members in the order of their keys. -/
def setMember (key : String) (v : Value) : List (String × Value) → List (String × Value)
  | [] => [(key, v)]
  | (k, w) :: rest =>
    if key < k then (key, v) :: (k, w) :: rest
    else if key = k then (key, v) :: rest
    else (k, w) :: setMember key v rest

mutual

/-- The value of a node that nests at most `room` deep. Members come in the order of their
keys, and the last of equal keys counts. -/
def Node.toValue? (room : Nat) : Node → Option Value
  | .null => some .null
  | .bool b => some (.bool b)
  | .number n => n.toNumber?.map .number
  | .text t => t.decode?.map .text
  | .list items =>
    match room with
    | 0 => none
    | room + 1 => (Node.toValues? room items).map .list
  | .record members =>
    match room with
    | 0 => none
    | room + 1 => (Node.toMembers? room [] members).map .record

def Node.toValues? (room : Nat) : List Node → Option (List Value)
  | [] => some []
  | n :: ns => do
    let v ← Node.toValue? room n
    let vs ← Node.toValues? room ns
    return v :: vs

def Node.toMembers? (room : Nat) (done : List (String × Value)) :
    List (Literal × Node) → Option (List (String × Value))
  | [] => some done
  | (key, n) :: rest => do
    let key ← key.decode?
    let v ← Node.toValue? room n
    Node.toMembers? room (setMember key v done) rest

end

/-- How deep a text may nest lists and records. -/
def depthLimit : Nat := 127

/-- One character of a string literal. -/
def escapeChar (c : Char) : List Char :=
  match c with
  | '"' => ['\\', '"']
  | '\\' => ['\\', '\\']
  | '\x08' => ['\\', 'b']
  | '\x0c' => ['\\', 'f']
  | '\n' => ['\\', 'n']
  | '\r' => ['\\', 'r']
  | '\t' => ['\\', 't']
  | c =>
    if c.toNat < 0x20 then
      '\\' :: 'u' :: LoginForest.Number.padZeros 4 (Nat.toDigits 16 c.toNat)
    else [c]

def literalChars (s : String) : List Char := '"' :: s.toList.flatMap escapeChar ++ ['"']

def Number.chars : Number → List Char
  | .count n => LoginForest.Number.digitsOf n
  | .negative n => '-' :: LoginForest.Number.digitsOf n
  | .real x => (LoginForest.Number.compactChars? x).getD ['n', 'u', 'l', 'l']

mutual

/-- The text of a value without blanks. -/
def Value.chars : Value → List Char
  | .null => ['n', 'u', 'l', 'l']
  | .bool true => ['t', 'r', 'u', 'e']
  | .bool false => ['f', 'a', 'l', 's', 'e']
  | .number n => n.chars
  | .text s => literalChars s
  | .list items => '[' :: Value.itemChars items ++ [']']
  | .record members => '\x7b' :: Value.memberChars members ++ ['\x7d']

def Value.itemChars : List Value → List Char
  | [] => []
  | [v] => v.chars
  | v :: vs => v.chars ++ ',' :: Value.itemChars vs

def Value.memberChars : List (String × Value) → List Char
  | [] => []
  | [(key, v)] => literalChars key ++ ':' :: v.chars
  | (key, v) :: rest => literalChars key ++ ':' :: v.chars ++ ',' :: Value.memberChars rest

end

def Value.compact (v : Value) : String := String.ofList v.chars

end LoginForest.Json
