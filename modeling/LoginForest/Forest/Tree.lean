/-
  Isolation trees: random splits of a list of rows, until each part is a single row, cannot be
  split or lies as deep as allowed. Rows that are unlike the others end in shallow leaves.
-/
import LoginForest.Matrix
import LoginForest.Number.Scalar
import LoginForest.Random.Generator

namespace LoginForest

/-- Where a row ends: how deep the leaf lies and how many rows it holds. -/
structure Leaf where
  depth : Nat
  size : Nat
deriving DecidableEq, Repr

/-- Rows whose feature is less than the threshold go left, the others right. -/
inductive Tree where
  | leaf (l : Leaf)
  | split (feature : Nat) (threshold : Float) (left right : Tree)
deriving BEq, Repr

/-- The average path to a leaf in a random binary search tree over `n` points,
`2 (ln (n - 1) + γ) - 2 (n - 1) / n`. -/
def averagePathLength [Analytic α] (n : Nat) : α :=
  if n ≤ 1 then Scalar.count 0
  else
    let gamma : α := Analytic.decimal 5772156649015329 16
    let two : α := Scalar.count 2
    let rest : α := Scalar.count n - Scalar.count 1
    two * (Analytic.log rest + gamma) - two * rest / Scalar.count n

/-- The path to a leaf: its depth, and the average path among the rows that it holds. -/
def Leaf.pathLength [Analytic α] (l : Leaf) : α := Scalar.count l.depth + averagePathLength l.size

/-- Whether a row goes left. -/
def goesLeft (feature : Nat) (threshold : Float) (row : List Float) : Bool :=
  row[feature]?.any (· < threshold)

/-- Smallest and largest value of a feature over some rows. -/
structure Range where
  feature : Nat
  low : Float
  high : Float

/-- The range of a feature; values that are no numbers do not count. -/
def Range.ofRows (feature : Nat) (rows : List (List Float)) : Range :=
  let infinity := Float.ofBits 0x7ff0000000000000
  (rows.filterMap (·[feature]?)).foldl
    (fun r v => { r with low := if v < r.low then v else r.low
                         high := if r.high < v then v else r.high })
    ⟨feature, infinity, -infinity⟩

/-- Whether a threshold can be drawn: more than one value, and a finite distance. -/
def Range.isOpen (r : Range) : Bool := r.low < r.high && (r.high - r.low).isFinite

/-- The features that can be split, in ascending order. -/
def openRanges (width : Nat) (rows : List (List Float)) : List Range :=
  ((List.range width).map fun feature => Range.ofRows feature rows).filter Range.isOpen

namespace Tree

section Growth

variable {γ : Type} [Random.Draws γ]

/-- Split the rows of a matrix with `width` columns, at most `room` levels below `depth`. The
feature is drawn first, then the threshold; then the left part grows, then the right one. -/
def grow (width : Nat) : (room depth : Nat) → List (List Float) → γ → Tree × γ
  | 0, depth, rows, g => (.leaf ⟨depth, rows.length⟩, g)
  | room + 1, depth, rows, g =>
    if rows.length ≤ 1 then (.leaf ⟨depth, rows.length⟩, g)
    else match openRanges width rows with
      | [] => (.leaf ⟨depth, rows.length⟩, g)
      | first :: others =>
        let (i, g) := Random.Draws.below (others.length + 1) g
        let range := (first :: others).getD i first
        let (threshold, g) := Random.Draws.between range.low range.high g
        let (left, right) := rows.partition (goesLeft range.feature threshold)
        if left.isEmpty || right.isEmpty then (.leaf ⟨depth, rows.length⟩, g)
        else
          let (l, g) := grow width room (depth + 1) left g
          let (r, g) := grow width room (depth + 1) right g
          (.split range.feature threshold l r, g)

/-- The tree of some rows of a matrix, its root at `depth` and no split at `limit` or below. -/
def build (x : Matrix Float) (indices : List Nat) (depth limit : Nat) (g : γ) : Tree × γ :=
  grow x.width (limit - depth) depth (x.select indices) g

end Growth

/-- The leaf that a row ends in. -/
def reach : Tree → List Float → Leaf
  | .leaf l, _ => l
  | .split feature threshold left right, row =>
    if goesLeft feature threshold row then left.reach row else right.reach row

/-- Whether a row has every feature that it is asked for on its way to a leaf. -/
def admits : Tree → List Float → Bool
  | .leaf _, _ => true
  | .split feature threshold left right, row =>
    feature < row.length &&
      if goesLeft feature threshold row then left.admits row else right.admits row

def pathLength [Analytic α] (t : Tree) (row : List Float) : α := (t.reach row).pathLength

/-- The leaves from left to right. -/
def leaves : Tree → List Leaf
  | .leaf l => [l]
  | .split _ _ left right => left.leaves ++ right.leaves

/-- Depth of the deepest leaf. -/
def height : Tree → Nat
  | .leaf l => l.depth
  | .split _ _ left right => max left.height right.height

/-- Number of rows in all leaves, counted in a word of 64 bits. -/
def size : Tree → UInt64
  | .leaf l => .ofNat l.size
  | .split _ _ left right => left.size + right.size

end Tree

end LoginForest
