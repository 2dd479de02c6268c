/-
  Binary64 numbers by their parts: a finite number is ± m · 2^e with m < 2^53. Conversions
  from and to exact numbers go through the parts, so that each is one rounding of an exact
  quotient.
-/
import LoginForest.Number.Rounding

namespace LoginForest.Number

/-- What a binary64 number denotes. -/
inductive Parts where
  | nan
  | infinite (negative : Bool)
  | finite (negative : Bool) (mantissa : Nat) (exponent : Int)
deriving Repr, DecidableEq

/-- The parts of the number with these bits. -/
def partsOfBits (bits : Nat) : Parts :=
  let fraction : Nat := bits % twoTo 52
  let biased : Nat := bits / twoTo 52 % twoTo 11
  let negative := decide (twoTo 63 ≤ bits)
  if biased = 2047 then
    if fraction = 0 then .infinite negative else .nan
  else if biased = 0 then .finite negative fraction (-1074)
  else .finite negative (twoTo 52 + fraction) ((biased : Int) - 1075)

/-- The parts of `x`. -/
def parts (x : Float) : Parts := partsOfBits x.toBits.toNat

/-- `num / den / 2^e` as a quotient of natural numbers. -/
def unscaled (num den : Nat) (e : Int) : Nat × Nat :=
  match e with
  | .ofNat k => (num, den <<< k)
  | .negSucc k => (num <<< (k + 1), den)

/-- The exponent of the unit in the last place of the number next to `num / den`. -/
def unitExponent (num den : Nat) : Int :=
  let e : Int := (num.log2 : Int) - (den.log2 : Int) - 53
  let (n, d) := unscaled num den e
  max (if n / d < twoTo 53 then e else e + 1) (-1074)

/-- The bits of infinity. -/
def infinityBits : Nat := 2047 * twoTo 52

/-- The bits of the number nearest to `num / den`, sign aside. -/
def nearestBits (num den : Nat) : Nat :=
  if num = 0 then 0
  else
    let e := unitExponent num den
    let (n, d) := unscaled num den e
    min ((e + 1074).toNat * twoTo 52 + roundDiv n d) infinityBits

/-- The number nearest to `± num / den`, ties to even; too large is infinite. -/
def nearest (negative : Bool) (num den : Nat) : Float :=
  Float.ofBits (UInt64.ofNat (nearestBits num den + if negative then twoTo 63 else 0))

/-- The number nearest to `n`. -/
def ofNat (n : Nat) : Float := nearest false n 1

/-- The number nearest to `± digits · 10^exponent`. Far outside the range of the format
the power is not computed. -/
def ofDecimal (negative : Bool) (digits : Nat) (exponent : Int) : Float :=
  if digits = 0 then nearest negative 0 1
  else if 400 < exponent then nearest negative (twoTo 1024) 1
  else if exponent < -400 - (digits.log2 + 1 : Nat) then nearest negative 0 1
  else match exponent with
    | .ofNat k => nearest negative (digits * tenTo k) 1
    | .negSucc k => nearest negative digits (tenTo (k + 1))

/-- Whole part of a number that is not negative; zero for a negative one and for NaN, the
largest 64-bit count for infinity. -/
def wholePart (x : Float) : Nat :=
  match parts x with
  | .finite false m (.ofNat k) => m <<< k
  | .finite false m (.negSucc k) => m >>> (k + 1)
  | .infinite false => twoTo 64 - 1
  | _ => 0

/-- Least whole number not below `x`, with the conventions of `wholePart`. -/
def wholeAbove (x : Float) : Nat :=
  match parts x with
  | .finite false m (.negSucc k) => (m + (twoTo (k + 1) - 1)) >>> (k + 1)
  | _ => wholePart x

/-- Place of `x` in the total order of binary64 numbers: minus infinity first, -0 before 0, NaN
last. The order puts a NaN with the sign bit in front of minus infinity, but the arithmetic here
has one NaN only, and this has no sign bit. -/
def place (x : Float) : Nat :=
  let bits := x.toBits.toNat
  if bits < twoTo 63 then twoTo 63 + bits else twoTo 64 - 1 - bits

end LoginForest.Number
