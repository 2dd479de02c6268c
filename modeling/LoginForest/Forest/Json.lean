/-
  Trees and forests as JSON records.
-/
import LoginForest.Forest.Basic

namespace LoginForest

open Json (Node Value)

namespace Tree

def toValue : Tree → Value
  | .leaf l =>
    .record [("External", .record [("depth", .count l.depth), ("size", .count l.size)])]
  | .split feature threshold left right =>
    .record [("Internal", .record [
      ("feature", .count feature),
      ("threshold", .real threshold),
      ("left", left.toValue),
      ("right", right.toValue)])]

def leafOfNode? (n : Node) : Option Leaf := do
  let fields ← n.fields? false ["depth", "size"]
  return {
    depth := ← fields.required? "depth" Node.count?
    size := ← fields.required? "size" Node.count? }

/-- A tree of at most `levels` levels. -/
def ofNode? : (levels : Nat) → Node → Option Tree
  | 0, _ => none
  | levels + 1, n => do
    match ← n.case? with
    | ("External", some n) => (leafOfNode? n).map .leaf
    | ("Internal", some n) =>
      let fields ← n.fields? false ["feature", "threshold", "left", "right"]
      return .split
        (← fields.required? "feature" Node.count?)
        (← fields.required? "threshold" Node.real?)
        (← fields.required? "left" (ofNode? levels))
        (← fields.required? "right" (ofNode? levels))
    | _ => none

end Tree

namespace Forest

def toValue (f : Forest) : Value :=
  .record [
    ("trees", .list (f.trees.map Tree.toValue)),
    ("n_features", .count f.width),
    ("subsample_size", .count f.sampleSize),
    ("expected_path_length", .real f.expectedPathLength),
    ("contamination", f.contamination.toValue),
    ("threshold", .real f.threshold)]

/-- How many levels a tree may have in a document: two records each, inside the document, the
forest and the list of trees. -/
def treeLevels : Nat := (Json.depthLimit - 3) / 2

/-- The forest inside a document. -/
def ofNode? (n : Node) : Option Forest := do
  let fields ← n.fields? false
    ["trees", "n_features", "subsample_size", "expected_path_length", "contamination",
      "threshold"]
  return {
    trees := ← fields.required? "trees" (Node.list? (Tree.ofNode? treeLevels))
    width := ← fields.required? "n_features" Node.count?
    sampleSize := ← fields.required? "subsample_size" Node.count?
    expectedPathLength := ← fields.required? "expected_path_length" Node.real?
    contamination := ← fields.required? "contamination" Contamination.ofNode?
    threshold := ← fields.required? "threshold" Node.real? }

end Forest

end LoginForest
