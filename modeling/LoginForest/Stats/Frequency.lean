/-
  How often each text occurs in a column, as a share of the most frequent one.
-/
import LoginForest.Number.Binary64

namespace LoginForest

/-- The distinct texts in ascending order, each with its count. -/
structure Frequency where
  counts : List (String × Nat)
deriving DecidableEq, Repr

namespace Frequency

/-- A run of equal texts and its length. -/
def run? : List String → Option (String × Nat)
  | [] => none
  | s :: rest => some (s, rest.length + 1)

/-- The frequencies of a column; missing texts are not counted. -/
def ofColumn (column : List (Option String)) : Frequency :=
  let sorted := (column.filterMap id).mergeSort fun a b => decide (a ≤ b)
  ⟨(sorted.splitBy (· == ·)).filterMap run?⟩

/-- Number of distinct texts. -/
def size (f : Frequency) : Nat := f.counts.length

/-- The count of the most frequent text. -/
def most (f : Frequency) : Nat := f.counts.foldl (fun m c => max m c.2) 0

def count (f : Frequency) (s : String) : Nat := (f.counts.lookup s).getD 0

/-- The count of a text over the largest count; zero for a missing or unknown text. -/
def share (f : Frequency) : Option String → Float
  | none => Number.ofNat 0
  | some s =>
    match f.counts.lookup s with
    | some n => Number.ofNat n / Number.ofNat f.most
    | none => Number.ofNat 0

end Frequency

end LoginForest
