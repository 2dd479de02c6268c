/-
  Internet addresses: the two literal forms, their numeric value, and host addresses that a
  data base writes with a prefix length.
-/
import LoginForest.Number.Reading
import LoginForest.Number.Scalar

namespace LoginForest

/-- An address by its numeric value. -/
inductive Address where
  | v4 (value : Nat)
  | v6 (value : Nat)
deriving DecidableEq, Repr

namespace Address

/-- The digits in front, in a base of at most sixteen. -/
def digitRun (base : Nat) (cs : List Char) : List Char :=
  cs.takeWhile fun c => (Number.hexDigit? c).any (· < base)

/-- A number of one to `most` digits. -/
def number? (base most : Nat) (cs : List Char) : Option (Nat × List Char) :=
  let ds := digitRun base cs
  if ds.isEmpty || most < ds.length then none
  else some (ds.foldl (fun n d => n * base + (Number.hexDigit? d).getD 0) 0, cs.drop ds.length)

/-- A decimal byte without superfluous zeros. -/
def byte? (cs : List Char) : Option (Nat × List Char) :=
  match number? 10 3 cs with
  | some (n, rest) =>
    if 255 < n || (cs.head? == some '0' && 1 < (digitRun 10 cs).length) then none
    else some (n, rest)
  | none => none

/-- A character and what follows it. -/
def skip? (c : Char) : List Char → Option (List Char)
  | [] => none
  | d :: cs => if c = d then some cs else none

/-- Four bytes with points between. -/
def quad? (cs : List Char) : Option (Nat × List Char) := do
  let (a, cs) ← byte? cs
  let (b, cs) ← byte? (← skip? '.' cs)
  let (c, cs) ← byte? (← skip? '.' cs)
  let (d, cs) ← byte? (← skip? '.' cs)
  return (((a * 256 + b) * 256 + c) * 256 + d, cs)

/-- Skip the colon in front of any group but the first. -/
def between? (first : Bool) (cs : List Char) : Option (List Char) :=
  if first then some cs else skip? ':' cs

/-- Groups read from the front of a text. -/
structure Groups where
  values : List Nat
  endsInQuad : Bool
  rest : List Char

/-- Up to `room` groups of sixteen bits with colons between, the last two of which may be
written as four bytes. -/
def groups (first : Bool) : Nat → List Char → Groups
  | 0, cs => ⟨[], false, cs⟩
  | room + 1, cs =>
    match (if room = 0 then none else (between? first cs).bind quad?) with
    | some (n, rest) => ⟨[n / 65536, n % 65536], true, rest⟩
    | none =>
      match (between? first cs).bind (number? 16 4) with
      | none => ⟨[], false, cs⟩
      | some (n, rest) =>
        let more := groups false room rest
        { more with values := n :: more.values }

/-- The value of groups written side by side. -/
def groupValue (groups : List Nat) : Nat := groups.foldl (fun n g => n * 65536 + g) 0

/-- Eight groups, or fewer with two colons in place of at least one zero group. -/
def long? (cs : List Char) : Option (Nat × List Char) :=
  let head := groups true 8 cs
  if head.values.length = 8 then some (groupValue head.values, head.rest)
  else if head.endsInQuad then none
  else do
    let tail := groups true (7 - head.values.length) (← skip? ':' (← skip? ':' head.rest))
    let gap := List.replicate (8 - head.values.length - tail.values.length) 0
    return (groupValue (head.values ++ gap ++ tail.values), tail.rest)

def ofChars? (cs : List Char) : Option Address :=
  match quad? cs with
  | some (n, []) => some (.v4 n)
  | some _ => none
  | none =>
    match long? cs with
    | some (n, []) => some (.v6 n)
    | _ => none

/-- The address that a literal denotes. -/
def read? (s : String) : Option Address := ofChars? s.toList

def value : Address → Nat
  | .v4 n => n
  | .v6 n => n

/-- The prefix length that stands for a single host. -/
def hostLength : Address → List Char
  | .v4 _ => ['3', '2']
  | .v6 _ => ['1', '2', '8']

/-- A literal followed by a slash and its host length loses both; any other text stays. -/
def normalize (s : String) : String :=
  let cs := s.toList
  let literal := cs.takeWhile (· != '/')
  match ofChars? literal with
  | some a => if cs.drop literal.length = '/' :: a.hostLength then String.ofList literal else s
  | none => s

/-- How an address field was understood. -/
inductive Status where
  | parsed
  | missing
  | invalid
deriving DecidableEq, Repr

/-- The address feature `ln (1 + value)`, and zero for a missing or invalid address. -/
def feature [Elementary] : Option String → Float × Status
  | none => (Number.ofNat 0, .missing)
  | some s =>
    if s.isEmpty then (Number.ofNat 0, .missing)
    else match read? s with
      | some a => (Elementary.log1p (Number.ofNat a.value), .parsed)
      | none => (Number.ofNat 0, .invalid)

end Address

end LoginForest
