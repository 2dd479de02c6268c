/-
  Growing and descending agree. A leaf is told from the others by the way to it, a list of turns.
  Whatever is drawn, a tree sorts the rows that it is grown on (`grow_sorts`); and in a tree that
  sorts rows every leaf counts the rows that take the way to it and lies as deep as the way is
  long (`Sorts.leafAt`). The main statement puts it in terms of a matrix and of the indices of its
  rows (`build_descent`).
-/
import LoginForest.Proofs.Forest.Growth

namespace LoginForest

open LoginForest.Random (Draws)

/-! ## Rows by their indices -/

/-- Row `k`; no entries where there is none. -/
def Matrix.row {α : Type} (x : Matrix α) (k : Nat) : List α := x.rows.getD k []

theorem Matrix.select_eq {α : Type} {x : Matrix α} {indices : List Nat}
    (h : ∀ k ∈ indices, k < x.height) : x.select indices = indices.map x.row := by
  unfold select
  rw [← List.filterMap_eq_map]
  refine List.filterMap_congr fun k hk => ?_
  have hk' : k < x.rows.length := h k hk
  simp [row, hk']

theorem Matrix.length_row {α : Type} {x : Matrix α} {k : Nat} (h : k < x.height) :
    (x.row k).length = x.width := by
  have hk : k < x.rows.length := h
  apply x.width_eq
  simp [row, hk]

namespace Tree

/-! ## Ways through a tree -/

/-- The turns of a row on its way to a leaf, `true` for the left. -/
def route : Tree → List Float → List Bool
  | .leaf _, _ => []
  | .split feature threshold left right, row =>
    if goesLeft feature threshold row then true :: left.route row else false :: right.route row

/-- The leaf at the end of a way. -/
def leafAt? : Tree → List Bool → Option Leaf
  | .leaf l, [] => some l
  | .leaf _, _ :: _ => none
  | .split .., [] => none
  | .split _ _ left right, turn :: way => if turn then left.leafAt? way else right.leafAt? way

/-- The way of a row leads to the leaf that it reaches. -/
theorem leafAt?_route (t : Tree) (row : List Float) :
    t.leafAt? (t.route row) = some (t.reach row) := by
  induction t with
  | leaf l => rfl
  | split feature threshold left right ihl ihr =>
    rw [route, reach]
    split
    · exact ihl
    · exact ihr

/-- The leaves are those that a way leads to. -/
theorem mem_leaves_iff {t : Tree} {l : Leaf} : l ∈ t.leaves ↔ ∃ way, t.leafAt? way = some l := by
  induction t with
  | leaf l' =>
    rw [leaves, List.mem_singleton]
    constructor
    · rintro rfl
      exact ⟨[], rfl⟩
    · rintro ⟨way, hway⟩
      cases way with
      | nil => exact (Option.some.inj hway).symm
      | cons turn way => cases hway
  | split feature threshold left right ihl ihr =>
    rw [leaves, List.mem_append, ihl, ihr]
    constructor
    · rintro (⟨way, hway⟩ | ⟨way, hway⟩)
      · exact ⟨true :: way, hway⟩
      · exact ⟨false :: way, hway⟩
    · rintro ⟨way, hway⟩
      cases way with
      | nil => cases hway
      | cons turn way =>
        cases turn with
        | true => exact .inl ⟨way, hway⟩
        | false => exact .inr ⟨way, hway⟩

/-! ## Trees that sort rows -/

/-- A tree at `depth` that sorts rows: each split sends them to both sides by its feature and
threshold, whatever these are, and each leaf counts those that come to it. -/
inductive Sorts : (depth : Nat) → List (List Float) → Tree → Prop
  | leaf (depth : Nat) (rows : List (List Float)) : Sorts depth rows (.leaf ⟨depth, rows.length⟩)
  | split {depth : Nat} {rows : List (List Float)} (feature : Nat) (threshold : Float)
    {left right : Tree} (hleft : Sorts (depth + 1) (rows.filter (goesLeft feature threshold)) left)
    (hright : Sorts (depth + 1) (rows.filter fun row => !goesLeft feature threshold row) right) :
    Sorts depth rows (.split feature threshold left right)

/-- A tree sorts the rows that it is grown on. -/
theorem grow_sorts {γ : Type} [Draws γ] (width room depth : Nat) (rows : List (List Float))
    (g : γ) : Sorts depth rows (grow width room depth rows g).1 := by
  induction room generalizing depth rows g with
  | zero => exact .leaf depth rows
  | succ room ih =>
    rcases grow_cases width room depth rows g with
      hleaf | ⟨range, -, g₁, g₂, g₃, -, -, hsplit⟩
    · rw [hleaf]
      exact .leaf depth rows
    · rw [hsplit]
      exact .split _ _ (ih _ _ g₂) (ih _ _ g₃)

namespace Sorts

variable {depth : Nat} {rows : List (List Float)} {t : Tree}

/-- A leaf lies at the end of its way and counts the rows that take it. -/
theorem leafAt (h : Sorts depth rows t) {way : List Bool} {l : Leaf}
    (hl : t.leafAt? way = some l) :
    l.depth = depth + way.length ∧ l.size = rows.countP fun row => t.route row = way := by
  induction h generalizing way with
  | leaf depth rows =>
    cases way with
    | nil =>
      obtain rfl := Option.some.inj hl
      refine ⟨rfl, ?_⟩
      show rows.length = _
      simp [route]
    | cons turn way => cases hl
  | split feature threshold hleft hright ihl ihr =>
    cases way with
    | nil => cases hl
    | cons turn way =>
      -- the rows that turn the same way are those that the part was grown on
      cases turn with
      | true =>
        obtain ⟨hdepth, hsize⟩ := ihl hl
        refine ⟨by rw [hdepth, List.length_cons]; omega, ?_⟩
        rw [hsize, List.countP_filter]
        refine List.countP_congr fun row _ => ?_
        cases hturn : goesLeft feature threshold row <;> simp [route, hturn]
      | false =>
        obtain ⟨hdepth, hsize⟩ := ihr hl
        refine ⟨by rw [hdepth, List.length_cons]; omega, ?_⟩
        rw [hsize, List.countP_filter]
        refine List.countP_congr fun row _ => ?_
        cases hturn : goesLeft feature threshold row <;> simp [route, hturn]

/-- The leaves hold all rows. -/
theorem sum_size_leaves (h : Sorts depth rows t) : (t.leaves.map (·.size)).sum = rows.length := by
  induction h with
  | leaf depth rows => simp [leaves]
  | split feature threshold hleft hright ihl ihr =>
    rw [leaves, List.map_append, List.sum_append, ihl, ihr,
      ← List.length_eq_length_filter_add]

end Sorts

/-! ## Trees of a matrix -/

/-- In the tree of some rows of a matrix, given by their indices, every leaf is at the end of a
way and counts the indices whose rows take it; the leaves hold all of them; the rows can go down;
and the path of a row has the length of its way, and besides the average path among the indices
whose rows share the leaf. -/
theorem build_descent {γ α : Type} [Draws γ] [Analytic α] (x : Matrix Float) (indices : List Nat)
    (depth limit : Nat) (g : γ) (hindices : ∀ k ∈ indices, k < x.height) :
    let t := (build x indices depth limit g).1
    (∀ l, l ∈ t.leaves ↔ ∃ way, t.leafAt? way = some l) ∧
    (∀ way l, t.leafAt? way = some l →
      l.depth = depth + way.length ∧ l.size = indices.countP fun k => t.route (x.row k) = way) ∧
    (t.leaves.map (·.size)).sum = indices.length ∧
    (∀ k ∈ indices, t.admits (x.row k) = true) ∧
    (∀ row, t.leafAt? (t.route row) = some (t.reach row)) ∧
    ∀ row, (t.pathLength row : α) = Scalar.count (depth + (t.route row).length) +
      averagePathLength (indices.countP fun k => t.route (x.row k) = t.route row) := by
  intro t
  have hsorts : Sorts depth (indices.map x.row) t := by
    rw [← Matrix.select_eq hindices]
    exact grow_sorts x.width (limit - depth) depth (x.select indices) g
  have hfits : t.Fits x.width := grow_fits x.width (limit - depth) depth (x.select indices) g
  have hleaf : ∀ way l, t.leafAt? way = some l → l.depth = depth + way.length ∧
      l.size = indices.countP fun k => t.route (x.row k) = way := by
    intro way l hl
    obtain ⟨hdepth, hsize⟩ := hsorts.leafAt hl
    rw [List.countP_map] at hsize
    exact ⟨hdepth, hsize⟩
  refine ⟨fun l => mem_leaves_iff, hleaf, ?_, ?_, t.leafAt?_route, ?_⟩
  · rw [hsorts.sum_size_leaves, List.length_map]
  · intro k hk
    exact hfits.admits (Matrix.length_row (hindices k hk))
  · intro row
    obtain ⟨hdepth, hsize⟩ := hleaf _ _ (t.leafAt?_route row)
    rw [pathLength, Leaf.pathLength, hdepth, hsize]

/-- A column of two numbers and what is no number. -/
def mixedColumn : Matrix Float where
  width := 1
  rows := [[Number.ofNat 0], [Number.ofNat 0 / Number.ofNat 0], [Number.ofNat 1]]
  width_eq := by simp

/-- Rows that are given twice count twice, that of no number too. -/
theorem build_descent_repeated :
    let t := (build mixedColumn [0, 1, 2, 1, 0] 1 4 (Random.Generator.ofSeed 7)).1
    (t.leaves.map (·.size)).sum = 5 ∧
      ∀ row, (t.pathLength row : Float) = Scalar.count (1 + (t.route row).length) +
        averagePathLength ([0, 1, 2, 1, 0].countP fun k => t.route (mixedColumn.row k) =
          t.route row) := by
  have hindices : ∀ k ∈ [0, 1, 2, 1, 0], k < mixedColumn.height := by decide
  obtain ⟨-, -, hsum, -, -, hpath⟩ :=
    build_descent (α := Float) mixedColumn [0, 1, 2, 1, 0] 1 4 (Random.Generator.ofSeed 7) hindices
  exact ⟨hsum, hpath⟩

end Tree

end LoginForest
