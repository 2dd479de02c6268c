/-
  Reading a number from a text: an optional sign, then digits with an optional point and an
  optional exponent, or a name of infinity or NaN in any case.
-/
import LoginForest.Number.Binary64

namespace LoginForest.Number

/-- The value of a hexadecimal digit in either case. -/
def hexDigit? (c : Char) : Option Nat :=
  if c.isDigit then some (c.toNat - '0'.toNat)
  else if 'a' ≤ c ∧ c ≤ 'f' then some (c.toNat - 'a'.toNat + 10)
  else if 'A' ≤ c ∧ c ≤ 'F' then some (c.toNat - 'A'.toNat + 10)
  else none

/-- The value of a row of digits that continues `n`. -/
def valueFrom (n : Nat) (ds : List Char) : Nat :=
  ds.foldl (fun n d => n * 10 + (d.toNat - '0'.toNat)) n

/-- A whole number of digits only. -/
def digits? (cs : List Char) : Option Nat :=
  if cs.isEmpty || cs.any (fun c => !c.isDigit) then none else some (valueFrom 0 cs)

/-- A count, which may carry a plus sign. -/
def count? (s : String) : Option Nat :=
  match s.toList with
  | '+' :: cs => digits? cs
  | cs => digits? cs

/-- A sign in front and what follows it. -/
def sign : List Char → Bool × List Char
  | '-' :: cs => (true, cs)
  | '+' :: cs => (false, cs)
  | cs => (false, cs)

/-- The exponent part, which may be absent but not unfinished. -/
def exponent? : List Char → Option Int
  | [] => some 0
  | c :: cs =>
    if c == 'e' || c == 'E' then
      let (negative, ds) := sign cs
      (digits? ds).map fun n => if negative then -(n : Int) else n
    else none

/-- Digits, point and exponent without a sign; one digit at least, on either side. -/
def unsigned? (negative : Bool) (cs : List Char) : Option Float :=
  let whole := cs.takeWhile Char.isDigit
  let rest := cs.dropWhile Char.isDigit
  let (places, tail) := match rest with
    | '.' :: rest => (rest.takeWhile Char.isDigit, rest.dropWhile Char.isDigit)
    | rest => ([], rest)
  if whole.isEmpty && places.isEmpty then none
  else (exponent? tail).map fun e =>
    ofDecimal negative (valueFrom (valueFrom 0 whole) places) (e - places.length)

/-- The number that `s` denotes, correctly rounded. -/
def read? (s : String) : Option Float :=
  let (negative, cs) := sign s.toList
  let word := String.ofList (cs.map Char.toLower)
  if word == "nan" then some (Float.ofBits 0x7ff8000000000000)
  else if word == "inf" || word == "infinity" then some (nearest negative (twoTo 1024) 1)
  else unsigned? negative cs

end LoginForest.Number
