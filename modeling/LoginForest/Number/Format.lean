/-
  The written forms of a binary64 number: plain (as in reports and messages), compact (as in
  JSON) and with a fixed number of places (as in tables).
-/
import LoginForest.Number.Shortest

namespace LoginForest.Number

def zeros (n : Nat) : List Char := List.replicate n '0'

/-- The decimal digits of `n`. -/
def digitsOf (n : Nat) : List Char := Nat.toDigits 10 n

/-- Digits with the point after the first `point` of them, filled up with zeros. -/
def positional (digits : List Char) (point : Int) : List Char :=
  if (digits.length : Int) ≤ point then digits ++ zeros (point - digits.length).toNat
  else if 0 < point then digits.take point.toNat ++ '.' :: digits.drop point.toNat
  else '0' :: '.' :: zeros (-point).toNat ++ digits

/-- The sign of a negative number. -/
def signed (negative : Bool) (cs : List Char) : List Char :=
  if negative then '-' :: cs else cs

/-- All digits written out, no exponent, no point after a whole number. -/
def plainChars (x : Float) : List Char :=
  match parts x with
  | .nan => ['N', 'a', 'N']
  | .infinite negative => signed negative ['i', 'n', 'f']
  | .finite negative 0 _ => signed negative ['0']
  | .finite negative m e =>
    let d := shortest .up m e
    let digits := digitsOf d.coefficient
    signed negative (positional digits (digits.length + d.exponent))

def plain (x : Float) : String := String.ofList (plainChars x)

/-- An exponent with its sign. -/
def exponentChars (e : Int) : List Char :=
  'e' :: (if e < 0 then '-' else '+') :: digitsOf e.natAbs

/-- One digit, the others behind a point, and the exponent. -/
def scientific (digits : List Char) (point : Int) : List Char :=
  match digits with
  | [] => []
  | [d] => d :: exponentChars (point - 1)
  | d :: ds => d :: '.' :: ds ++ exponentChars (point - 1)

/-- Digits written out while the point is at most sixteen places behind the first digit or
five before it, and with an exponent beyond; a whole number ends in `.0`. -/
def compactFinite (digits : List Char) (point : Int) : List Char :=
  if -5 < point ∧ point ≤ 16 then
    if (digits.length : Int) ≤ point then positional digits point ++ ['.', '0']
    else positional digits point
  else scientific digits point

/-- The compact form of a finite number; `none` for the others. -/
def compactChars? (x : Float) : Option (List Char) :=
  match parts x with
  | .nan => none
  | .infinite _ => none
  | .finite negative 0 _ => some (signed negative ['0', '.', '0'])
  | .finite negative m e =>
    let d := shortest .even m e
    let digits := digitsOf d.coefficient
    some (signed negative (compactFinite digits (digits.length + d.exponent)))

/-- At least `width` digits, zeros in front. -/
def padZeros (width : Nat) (cs : List Char) : List Char := zeros (width - cs.length) ++ cs

/-- `places` digits behind the point, the exact value rounded half to even. -/
def fixedChars (places : Nat) (x : Float) : List Char :=
  match parts x with
  | .nan => ['N', 'a', 'N']
  | .infinite negative => signed negative ['i', 'n', 'f']
  | .finite negative m e =>
    let n := roundDiv (m * tenTo places * twoTo e.toNat) (twoTo (-e).toNat)
    let digits := padZeros (places + 1) (digitsOf n)
    signed negative
      (digits.take (digits.length - places) ++ '.' :: digits.drop (digits.length - places))

def fixed (places : Nat) (x : Float) : String := String.ofList (fixedChars places x)

end LoginForest.Number
