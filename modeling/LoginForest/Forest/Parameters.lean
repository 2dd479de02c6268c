/-
  How many rows a tree is grown on, and how many training rows are expected to be anomalies.
-/
import LoginForest.Json.Decode
import LoginForest.Json.Encode

namespace LoginForest

open Json (Node Value)

/-- A tree's sample of the rows: up to 256, a count, or a fraction of all rows. -/
inductive SampleSize where
  | auto
  | count (n : Nat)
  | fraction (f : Float)
deriving BEq, Repr

/-- The share of anomalies in the training rows; automatic means a threshold of one half. -/
inductive Contamination where
  | auto
  | fraction (c : Float)
deriving BEq, Repr

namespace SampleSize

/-- The sample size for `rows` rows, between one and all of them. -/
def resolve (s : SampleSize) (rows : Nat) : Nat :=
  let size := match s with
    | .auto => 256
    | .count n => n
    | .fraction f => Number.wholePart (f * Number.ofNat rows)
  min (max size 1) (max rows 1)

theorem one_le_resolve (s : SampleSize) (rows : Nat) : 1 ≤ s.resolve rows := by
  simp only [resolve]
  omega

theorem resolve_le (s : SampleSize) {rows : Nat} (h : 1 ≤ rows) : s.resolve rows ≤ rows := by
  simp only [resolve]
  omega

def toValue : SampleSize → Value
  | .auto => .text "Auto"
  | .count n => .record [("Count", .count n)]
  | .fraction f => .record [("Fraction", .real f)]

def ofNode? (n : Node) : Option SampleSize := do
  match ← n.case? with
  | ("Auto", none) => some .auto
  | ("Auto", some .null) => some .auto
  | ("Count", some n) => n.count?.map .count
  | ("Fraction", some n) => n.real?.map .fraction
  | _ => none

end SampleSize

namespace Contamination

/-- A fraction held between 2^-52 and one half; NaN stays. -/
def held (c : Contamination) : Contamination :=
  match c with
  | .auto => .auto
  | .fraction c =>
    let low := Number.nearest false 1 (Number.twoTo 52)
    let high := Number.nearest false 1 2
    .fraction (if c < low then low else if high < c then high else c)

def toValue : Contamination → Value
  | .auto => .text "Auto"
  | .fraction c => .record [("Fraction", .real c)]

def ofNode? (n : Node) : Option Contamination := do
  match ← n.case? with
  | ("Auto", none) => some .auto
  | ("Auto", some .null) => some .auto
  | ("Fraction", some n) => n.real?.map .fraction
  | _ => none

end Contamination

end LoginForest
