/-
  The numbers that statistics and scores are computed with. The formulas are written once, for
  any type with these operations; programs run them on binary64 numbers.
-/
import LoginForest.Number.Logarithm

namespace LoginForest

/-- Numbers with what order statistics need. `less`, `atMost` and `same` compare values and
are false on what is not a number; `precedes` is a total order to sort by. -/
class Scalar (α : Type) extends Add α, Sub α, Mul α, Div α, Neg α where
  count : Nat → α
  less : α → α → Bool
  atMost : α → α → Bool
  same : α → α → Bool
  isNumber : α → Bool
  isFinite : α → Bool
  precedes : α → α → Bool
  floor : α → Nat
  ceiling : α → Nat

/-- Numbers with what path lengths and scores need besides. -/
class Analytic (α : Type) extends Scalar α where
  log : α → α
  twoToThe : α → α
  /-- `digits / 10^places` -/
  decimal : (digits places : Nat) → α

instance : Scalar Float where
  count := Number.ofNat
  less a b := a < b
  atMost a b := a ≤ b
  same a b := a == b
  isNumber x := !x.isNaN
  isFinite := Float.isFinite
  precedes a b := Number.place a ≤ Number.place b
  floor := Number.wholePart
  ceiling := Number.wholeAbove

/-- The natural logarithm, that of one and a number, and the powers of two of binary64 numbers.
What is computed with them is defined for any functions in their place. -/
class Elementary where
  log : Float → Float
  log1p : Float → Float
  twoToThe : Float → Float

/-- The functions of the machine. -/
instance : Elementary where
  log := Float.log
  log1p := Number.log1p
  twoToThe x := Float.pow (Number.ofNat 2) x

instance [Elementary] : Analytic Float where
  log := Elementary.log
  twoToThe := Elementary.twoToThe
  decimal digits places := Number.ofDecimal false digits (-(places : Int))

end LoginForest
