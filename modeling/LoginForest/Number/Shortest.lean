/-
  The shortest decimal of a number: of all decimals that read back as the number, those with
  the fewest digits, and of these the nearest.
-/
import LoginForest.Number.Binary64

namespace LoginForest.Number

/-- `coefficient · 10^exponent`. -/
structure Decimal where
  coefficient : Nat
  exponent : Int
deriving Repr, DecidableEq

/-- Which of two decimals equally near is taken. -/
inductive Tie where
  | up
  | even
deriving DecidableEq

/-- The reals that round to `m · 2^e`, in quarters of `2^e`: from `low` to `high`, ends
included when `m` is even. The gap below a power of two is half as wide. -/
structure Interval where
  low : Nat
  mid : Nat
  high : Nat
  closed : Bool

def interval (m : Nat) (e : Int) : Interval where
  low := if m = twoTo 52 ∧ -1074 < e then 4 * m - 1 else 4 * m - 2
  mid := 4 * m
  high := 4 * m + 2
  closed := m % 2 == 0

/-- `2^(e-2) / 10^p` as a quotient. -/
def scale (e p : Int) : Nat × Nat :=
  (twoTo (e - 2).toNat * tenTo (-p).toNat, twoTo (2 - e).toNat * tenTo p.toNat)

/-- Whether `k · 10^p` lies in the interval, for the scale `num / den` of `p`. -/
def Interval.holds (i : Interval) (num den k : Nat) : Bool :=
  if i.closed then i.low * num ≤ k * den && k * den ≤ i.high * num
  else i.low * num < k * den && k * den < i.high * num

/-- The multiple of `10^p` in the interval that is nearest to its middle, if there is one. -/
def Interval.nearestMultiple? (i : Interval) (tie : Tie) (num den : Nat) : Option Nat :=
  let k := i.mid * num / den
  match i.holds num den k, i.holds num den (k + 1) with
  | false, false => none
  | true, false => some k
  | false, true => some (k + 1)
  | true, true =>
    let below := i.mid * num - k * den
    let above := (k + 1) * den - i.mid * num
    if below < above then some k
    else if above < below then some (k + 1)
    else match tie with
      | .up => some (k + 1)
      | .even => some (k + k % 2)

/-- Try the grids of spacing `10^p`, `10^(p-1)`, …, the widest first. -/
def firstGrid (i : Interval) (tie : Tie) (e : Int) : Nat → Int → Decimal
  | 0, p => ⟨0, p⟩
  | tries + 1, p =>
    let (num, den) := scale e p
    match i.nearestMultiple? tie num den with
    | some k => ⟨k, p⟩
    | none => firstGrid i tie e tries (p - 1)

/-- The shortest decimal of `m · 2^e`. The first grid is wider than the number, and nineteen
steps down no grid is wider than the interval. -/
def shortest (tie : Tie) (m : Nat) (e : Int) : Decimal :=
  let top : Int := ((m.log2 : Int) + e + 1) * 30103 / 100000 + 1
  firstGrid (interval m e) tie e 20 top

end LoginForest.Number
