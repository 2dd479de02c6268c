/-
  Quantiles with linear interpolation between the neighbouring order statistics.
-/
import LoginForest.Number.Scalar

namespace LoginForest

variable {α : Type} [Scalar α]

open Scalar

/-- `q` held between zero and one. -/
def clampUnit (q : α) : α :=
  let q := if less q (count 0) then count 0 else q
  if less (count 1) q then count 1 else q

/-- The point at `fraction` of the way from `a` to `b`. When their distance is too large for
the number type, each end is weighted by itself. -/
def interpolate (a b fraction : α) : α :=
  let value := a + (b - a) * fraction
  if isFinite value then value else a * (count 1 - fraction) + b * fraction

/-- The `q`-quantile of values in ascending order; `none` if there are none. -/
def quantileSorted (sorted : List α) (q : α) : Option α :=
  let position := clampUnit q * count (sorted.length - 1)
  let low := floor position
  let high := ceiling position
  let fraction := position - count low
  match sorted[low]?, sorted[high]? with
  | some a, some b =>
    some (if low == high || same fraction (count 0) then a else interpolate a b fraction)
  | _, _ => none

/-- Values in ascending order. -/
def ascending (values : List α) : List α := values.mergeSort precedes

/-- The `q`-quantile of values in any order, those that are no numbers left out. -/
def quantile (values : List α) (q : α) : Option α :=
  quantileSorted (ascending (values.filter isNumber)) q

/-- One half. -/
def half : α := count 1 / count 2

def median (values : List α) : Option α := quantile values half

end LoginForest
