/-
  Drawing `k` different numbers below `n`. There are three ways to do it; the cheapest by an
  estimate from `n` and `k` is taken, and which one it is shows in the numbers drawn.
-/
import LoginForest.Random.Generator

namespace LoginForest.Random

/-- Swap each of the `k` places from `i` on with a place at or after it, below `n`. -/
def swapForward (n : Nat) : (k i : Nat) → Array Nat → Generator → Array Nat × Generator
  | 0, _, numbers, g => (numbers, g)
  | k + 1, i, numbers, g =>
    let (j, g) := g.below .half (n - i)
    swapForward n k (i + 1) (numbers.swapIfInBounds i (i + j)) g

/-- Swap each place from `i` down to the second with a place at or before it. -/
def swapBackward : (i : Nat) → Array Nat → Generator → Array Nat × Generator
  | 0, numbers, g => (numbers, g)
  | i + 1, numbers, g =>
    let (j, g) := g.below .half (i + 2)
    swapBackward i (numbers.swapIfInBounds (i + 1) j) g

/-- The front of all numbers below `n`, shuffled as far as needed. -/
def sampleBySwaps (n k : Nat) (g : Generator) : List Nat × Generator :=
  let (numbers, g) := swapForward n k 0 (Array.range n) g
  (numbers.toList.take k, g)

/-- Put `j` in front of `t`. -/
def insertBefore (t j : Nat) : List Nat → List Nat
  | [] => []
  | x :: xs => if x = t then j :: x :: xs else x :: insertBefore t j xs

/-- For each of the `k` numbers from `j` on, take a number up to it, or itself when that one
is taken already. It goes to the end, or when `mixed` in front of the number it stands for. -/
def collect (mixed : Bool) : (k j : Nat) → List Nat → Generator → List Nat × Generator
  | 0, _, taken, g => (taken, g)
  | k + 1, j, taken, g =>
    let (t, g) := g.below .half (j + 1)
    let taken :=
      if taken.contains t then
        if mixed then insertBefore t j taken else taken ++ [j]
      else taken ++ [t]
    collect mixed k (j + 1) taken g

/-- Collect numbers, mixing them on the way if they are few and afterwards if not. -/
def sampleByCollecting (n k : Nat) (g : Generator) : List Nat × Generator :=
  if k < 50 then collect true k (n - k) [] g
  else
    let (taken, g) := collect false k (n - k) [] g
    let (numbers, g) := swapBackward (k - 1) taken.toArray g
    (numbers.toList, g)

/-- A number below `n` that is not taken; the least one when the draws are used up. -/
def drawFresh (w : Generator.Width) (n : Nat) (taken : List Nat) :
    Nat → Generator → Nat × Generator
  | 0, g => (((List.range n).find? fun t => !taken.contains t).getD 0, g)
  | draws + 1, g =>
    let (t, g) := g.drawBelow w (Generator.widestZone w n) n Generator.drawLimit
    if taken.contains t then drawFresh w n taken draws g else (t, g)

/-- Draw numbers one after another, again when one is taken; they are kept last first. -/
def sampleByRejection (w : Generator.Width) (n : Nat) :
    Nat → List Nat → Generator → List Nat × Generator
  | 0, taken, g => (taken.reverse, g)
  | k + 1, taken, g =>
    let (t, g) := drawFresh w n taken Generator.drawLimit g
    sampleByRejection w n k (t :: taken) g

inductive Method where
  | swaps
  | collecting
  | rejection
deriving DecidableEq, Repr

/-- The cheapest method by estimate, in single precision. -/
def Method.of (n k : Nat) : Method :=
  let size := n.toUInt64.toFloat32
  let picks := k.toUInt64.toFloat32
  let small := decide (n < 500000)
  if k < 163 then
    let perPick : Float32 := if small then 1.6 else 8.0 / 45.0
    let fixed : Float32 := if small then 10.0 else 70.0 / 9.0
    if 11 < k ∧ size < (fixed + perPick * picks) * picks then .swaps else .collecting
  else
    let fixed : Float32 := if small then 270.0 else 330.0 / 9.0
    if size < fixed * picks then .swaps else .rejection

/-- `k` different numbers below `n`, where `k` is at most `n`. -/
def sample (n k : Nat) (g : Generator) : List Nat × Generator :=
  if Number.twoTo 32 ≤ n then sampleByRejection .full n k [] g
  else match Method.of n k with
    | .swaps => sampleBySwaps n k g
    | .collecting => sampleByCollecting n k g
    | .rejection => sampleByRejection .half n k [] g

end LoginForest.Random
