/-
  The shape of a tree. A subtree is told by the way to it, and is itself what grows from the rows
  that come by it, with the generator as it is at that time (`subtree?_grow`); so one step says of
  every place in a tree why there is a split or a leaf (`grow_step`). Splits lead to rows on both
  sides, so that there are no more leaves than distinct rows (`length_leaves_grow_le`). The main
  statement puts all of it in terms of a matrix and of the indices of its rows (`build_shape`).
-/
import LoginForest.Proofs.Forest.Ranges

namespace LoginForest

open Number
open LoginForest.Random (Draws)

/-! ## Values that no split tells apart -/

/-- Neither value lies before the other, and if one is no number, nor is the other. -/
def Alike (v w : Float) : Prop := v.isNaN = w.isNaN ∧ ¬ v < w ∧ ¬ w < v

theorem alike_of_toBits_eq {v w : Float} (h : v.toBits = w.toBits) : Alike v w := by
  obtain rfl := eq_of_toBits_eq (congrArg UInt64.toNat h)
  have hirrefl : ¬ v < v := fun hlt =>
    lt_irrefl _ ((lt_iff_extended (not_isNaN_of_lt hlt).1 (not_isNaN_of_lt hlt).1).mp hlt)
  exact ⟨rfl, hirrefl, hirrefl⟩

/-- Rows with the same bits have like values. -/
theorem forall₂_alike {row row' : List Float} (h : row.map Float.toBits = row'.map Float.toBits) :
    List.Forall₂ Alike row row' := by
  rw [← List.forall₂_eq_eq_eq, List.forall₂_map_left_iff, List.forall₂_map_right_iff] at h
  exact h.imp fun _ _ => alike_of_toBits_eq

theorem Alike.lt_iff {v w : Float} (h : Alike v w) (u : Float) : v < u ↔ w < u := by
  obtain ⟨hnumber, hvw, hwv⟩ := h
  by_cases hv : v.isNaN
  · exact iff_of_false (fun hlt => (not_isNaN_of_lt hlt).1 hv)
      fun hlt => (not_isNaN_of_lt hlt).1 (hnumber ▸ hv)
  by_cases hu : u.isNaN
  · exact iff_of_false (fun hlt => (not_isNaN_of_lt hlt).2 hu)
      fun hlt => (not_isNaN_of_lt hlt).2 hu
  have hw : ¬ w.isNaN := hnumber ▸ hv
  rw [not_lt_iff_extended hv hw] at hvw
  rw [not_lt_iff_extended hw hv] at hwv
  rw [lt_iff_extended hv hu, lt_iff_extended hw hu, le_antisymm hwv hvw]

/-- Rows of like values turn the same way. -/
theorem goesLeft_of_alike {row row' : List Float} (h : List.Forall₂ Alike row row')
    (feature : Nat) (threshold : Float) :
    goesLeft feature threshold row = goesLeft feature threshold row' := by
  unfold goesLeft
  induction h generalizing feature with
  | nil => rfl
  | cons hv _ ih =>
    cases feature with
    | zero => simpa using hv.lt_iff threshold
    | succ feature => exact ih feature

namespace Tree

theorem route_of_alike (t : Tree) {row row' : List Float} (h : List.Forall₂ Alike row row') :
    t.route row = t.route row' := by
  induction t with
  | leaf l => rfl
  | split feature threshold left right ihl ihr =>
    rw [route, route, goesLeft_of_alike h, ihl, ihr]

/-! ## Subtrees -/

/-- The part of a tree at the end of a way. -/
def subtree? : Tree → List Bool → Option Tree
  | t, [] => some t
  | .leaf _, _ :: _ => none
  | .split _ _ left right, turn :: way => if turn then left.subtree? way else right.subtree? way

@[simp]
theorem subtree?_nil (t : Tree) : t.subtree? [] = some t := by
  cases t <;> rfl

/-- Whether a row comes by the end of a way. -/
def passes (t : Tree) (way : List Bool) (row : List Float) : Bool := way.isPrefixOf (t.route row)

theorem subtree?_eq_some_leaf {t : Tree} {way : List Bool} {l : Leaf} :
    t.subtree? way = some (.leaf l) ↔ t.leafAt? way = some l := by
  induction t generalizing way with
  | leaf l' => cases way <;> simp [subtree?, leafAt?]
  | split feature threshold left right ihl ihr =>
    cases way with
    | nil => simp [subtree?, leafAt?]
    | cons turn way => cases turn <;> simp [subtree?, leafAt?, ihl, ihr]

@[simp]
theorem passes_nil (t : Tree) (row : List Float) : t.passes [] row = true := rfl

theorem passes_cons {feature : Nat} {threshold : Float} {left right : Tree} (turn : Bool)
    (way : List Bool) (row : List Float) :
    (split feature threshold left right).passes (turn :: way) row =
      (goesLeft feature threshold row == turn &&
        (if turn then left.passes way row else right.passes way row)) := by
  cases turn <;> cases h : goesLeft feature threshold row <;>
    simp [passes, route, h, List.isPrefixOf]

/-- Of the rows that come by a split, those that turn one way come by its part. -/
theorem passes_concat {t : Tree} {way : List Bool} {feature : Nat} {threshold : Float}
    {left right : Tree} (h : t.subtree? way = some (.split feature threshold left right))
    (turn : Bool) (row : List Float) : t.passes (way ++ [turn]) row =
      (t.passes way row && goesLeft feature threshold row == turn) := by
  induction way generalizing t with
  | nil =>
    rw [subtree?_nil] at h
    obtain rfl := Option.some.inj h
    rw [List.nil_append, passes_cons]
    simp
  | cons turn' way ih =>
    cases t with
    | leaf l => cases h
    | split feature' threshold' left' right' =>
      rw [List.cons_append, passes_cons, passes_cons, Bool.and_assoc]
      cases turn' with
      | true => rw [if_pos rfl, if_pos rfl, ih h]
      | false => rw [if_neg Bool.false_ne_true, if_neg Bool.false_ne_true, ih h]

/-! ## Growth, place by place -/

section Growth

variable {γ : Type} [Draws γ]

/-- The generator when growth comes to the end of a way. -/
def generatorAt (width : Nat) : (room depth : Nat) → List (List Float) → γ → List Bool → γ
  | room + 1, depth, rows, g, turn :: way =>
    match drawn? width rows g with
    | none => g
    | some (range, threshold, g) =>
      let left := rows.filter (goesLeft range.feature threshold)
      let right := rows.filter fun row => !goesLeft range.feature threshold row
      if turn then generatorAt width room (depth + 1) left g way
      else generatorAt width room (depth + 1) right (grow width room (depth + 1) left g).2 way
  | _, _, _, g, _ => g

/-- A subtree is what grows from the rows that come by it. -/
theorem subtree?_grow {width room depth : Nat} {rows : List (List Float)} {g : γ} {way : List Bool}
    {t : Tree} (h : (grow width room depth rows g).1.subtree? way = some t) :
    way.length ≤ room ∧ t = (grow width (room - way.length) (depth + way.length)
      (rows.filter ((grow width room depth rows g).1.passes way))
      (generatorAt width room depth rows g way)).1 := by
  induction way generalizing room depth rows g with
  | nil =>
    rw [subtree?_nil] at h
    obtain rfl := Option.some.inj h
    refine ⟨Nat.zero_le room, ?_⟩
    have hall : rows.filter ((grow width room depth rows g).1.passes []) = rows :=
      List.filter_eq_self.mpr fun _ _ => rfl
    rw [hall]
    cases room <;> rfl
  | cons turn way ih =>
    cases room with
    | zero => cases h
    | succ room =>
      rcases grow_step width room depth rows g with
        ⟨hleaf, -⟩ | ⟨range, threshold, g', hdrawn, -, -, hsplit⟩
      · rw [hleaf] at h
        cases h
      · have hroom : room + 1 - (way.length + 1) = room - way.length := by omega
        have hdepth : depth + (way.length + 1) = depth + 1 + way.length := by omega
        rw [hsplit] at h ⊢
        rw [List.length_cons, hroom, hdepth, generatorAt, hdrawn]
        -- the rows that come by the part are those of the rows that turn to it
        cases turn with
        | true =>
          obtain ⟨hlength, rfl⟩ := ih h
          refine ⟨Nat.succ_le_succ hlength, ?_⟩
          rw [List.filter_filter]
          congr 3
          funext row
          rw [passes_cons]
          cases goesLeft range.feature threshold row <;> simp
        | false =>
          obtain ⟨hlength, rfl⟩ := ih h
          refine ⟨Nat.succ_le_succ hlength, ?_⟩
          rw [List.filter_filter]
          congr 3
          funext row
          rw [passes_cons]
          cases goesLeft range.feature threshold row <;> simp

/-- A leaf counts the rows; above the limit they are few, or none of their columns has a span, or
what is drawn for them leaves one side empty. -/
theorem leaf_grow {width room depth : Nat} {rows : List (List Float)} {g : γ} {l : Leaf}
    (h : (grow width room depth rows g).1 = .leaf l) : l = ⟨depth, rows.length⟩ ∧
      (0 < room → rows.length ≤ 1 ∨ openRanges width rows = [] ∨
        ∃ range threshold g', drawn? width rows g = some (range, threshold, g') ∧
          (rows.filter (goesLeft range.feature threshold) = [] ∨
            rows.filter (fun row => !goesLeft range.feature threshold row) = [])) := by
  cases room with
  | zero => exact ⟨(Tree.leaf.inj h).symm, fun hpos => absurd hpos (Nat.lt_irrefl 0)⟩
  | succ room =>
    rcases grow_step width room depth rows g with
      ⟨hleaf, hreason⟩ | ⟨range, threshold, g', -, -, -, hsplit⟩
    · exact ⟨Tree.leaf.inj (h.symm.trans hleaf), fun _ => hreason⟩
    · cases h.symm.trans hsplit

/-- A split has an open range, and rows on both sides. -/
theorem split_grow {width room depth : Nat} {rows : List (List Float)} {g : γ} {feature : Nat}
    {threshold : Float} {left right : Tree}
    (h : (grow width room depth rows g).1 = .split feature threshold left right) :
    (∃ range ∈ openRanges width rows, range.feature = feature) ∧
      rows.filter (goesLeft feature threshold) ≠ [] ∧
      rows.filter (fun row => !goesLeft feature threshold row) ≠ [] := by
  cases room with
  | zero => cases h
  | succ room =>
    rcases grow_step width room depth rows g with
      ⟨hleaf, -⟩ | ⟨range, threshold', g', hdrawn, hleft, hright, hsplit⟩
    · cases h.symm.trans hleaf
    · obtain ⟨rfl, rfl, -, -⟩ := Tree.split.inj (h.symm.trans hsplit)
      exact ⟨⟨range, (drawn?_spec hdrawn).1, rfl⟩, hleft, hright⟩

/-! ## Numbers of leaves -/

/-- The distinct rows, by the bits of their values. -/
def forms (rows : List (List Float)) : Finset (List UInt64) :=
  (rows.map (·.map Float.toBits)).toFinset

theorem mem_forms {rows : List (List Float)} {bits : List UInt64} :
    bits ∈ forms rows ↔ ∃ row ∈ rows, row.map Float.toBits = bits := by
  rw [forms, List.mem_toFinset, List.mem_map]

theorem one_le_card_forms {rows : List (List Float)} (h : rows ≠ []) : 1 ≤ (forms rows).card := by
  rw [Finset.one_le_card, forms, List.toFinset_nonempty_iff, ne_eq, List.map_eq_nil_iff]
  exact h

/-- The two parts of the rows have no form in common. -/
theorem card_forms_parts (feature : Nat) (threshold : Float) (rows : List (List Float)) :
    (forms (rows.filter (goesLeft feature threshold))).card +
      (forms (rows.filter fun row => !goesLeft feature threshold row)).card ≤
        (forms rows).card := by
  have hdisjoint : Disjoint (forms (rows.filter (goesLeft feature threshold)))
      (forms (rows.filter fun row => !goesLeft feature threshold row)) := by
    rw [Finset.disjoint_left]
    intro bits hleft hright
    obtain ⟨row, hrow, rfl⟩ := mem_forms.mp hleft
    obtain ⟨row', hrow', hbits⟩ := mem_forms.mp hright
    obtain ⟨-, hturn⟩ := List.mem_filter.mp hrow
    obtain ⟨-, hturn'⟩ := List.mem_filter.mp hrow'
    rw [goesLeft_of_alike (forall₂_alike hbits), hturn] at hturn'
    cases hturn'
  rw [← Finset.card_union_of_disjoint hdisjoint]
  refine Finset.card_le_card (Finset.union_subset ?_ ?_) <;> intro bits hbits
  · obtain ⟨row, hrow, hform⟩ := mem_forms.mp hbits
    exact mem_forms.mpr ⟨row, List.mem_of_mem_filter hrow, hform⟩
  · obtain ⟨row, hrow, hform⟩ := mem_forms.mp hbits
    exact mem_forms.mpr ⟨row, List.mem_of_mem_filter hrow, hform⟩

theorem length_leaves_grow_le_two_pow (width room depth : Nat) (rows : List (List Float)) (g : γ) :
    (grow width room depth rows g).1.leaves.length ≤ 2 ^ room := by
  induction room generalizing depth rows g with
  | zero => exact le_rfl
  | succ room ih =>
    rcases grow_cases width room depth rows g with
      hleaf | ⟨range, -, g₁, g₂, g₃, -, -, hsplit⟩
    · rw [hleaf]
      exact Nat.one_le_two_pow
    · rw [hsplit, leaves, List.length_append, pow_succ, mul_two]
      exact Nat.add_le_add (ih _ _ g₂) (ih _ _ g₃)

/-- There are no more leaves than rows that differ in a bit. -/
theorem length_leaves_grow_le (width room depth : Nat) {rows : List (List Float)} (g : γ)
    (hrows : rows ≠ []) :
    (grow width room depth rows g).1.leaves.length ≤ (forms rows).card := by
  induction room generalizing depth rows g with
  | zero => exact one_le_card_forms hrows
  | succ room ih =>
    rcases grow_cases width room depth rows g with
      hleaf | ⟨range, -, g₁, g₂, g₃, hleft, hright, hsplit⟩
    · rw [hleaf]
      exact one_le_card_forms hrows
    · rw [hsplit, leaves, List.length_append]
      exact (Nat.add_le_add (ih _ g₂ hleft) (ih _ g₃ hright)).trans (card_forms_parts ..)

theorem one_le_size_leaves_grow (width room depth : Nat) {rows : List (List Float)} (g : γ)
    (hrows : rows ≠ []) {l : Leaf} (hl : l ∈ (grow width room depth rows g).1.leaves) :
    1 ≤ l.size := by
  induction room generalizing depth rows g with
  | zero =>
    obtain rfl := List.mem_singleton.mp hl
    exact List.length_pos_iff.mpr hrows
  | succ room ih =>
    rcases grow_cases width room depth rows g with
      hleaf | ⟨range, -, g₁, g₂, g₃, hleft, hright, hsplit⟩
    · rw [hleaf] at hl
      obtain rfl := List.mem_singleton.mp hl
      exact List.length_pos_iff.mpr hrows
    · rw [hsplit, leaves, List.mem_append] at hl
      exact hl.elim (ih _ g₂ hleft) (ih _ g₃ hright)

end Growth

end Tree

/-! ## Trees of a matrix -/

namespace Matrix

/-- The values of a feature in the rows with these indices. -/
def values (x : Matrix Float) (indices : List Nat) (feature : Nat) : List Float :=
  indices.filterMap (x.entry? · feature)

theorem entry?_eq (x : Matrix Float) (k j : Nat) : x.entry? k j = (x.row k)[j]? := by
  rw [Matrix.entry?, row, List.getD_eq_getElem?_getD]
  cases x.rows[k]? with
  | none => rfl
  | some row => rfl

theorem values_eq (x : Matrix Float) (indices : List Nat) (feature : Nat) :
    x.values indices feature = (indices.map x.row).filterMap (·[feature]?) := by
  rw [values, List.filterMap_map]
  exact List.filterMap_congr fun k _ => x.entry?_eq k feature

end Matrix

/-- No range is open where no column has a span. -/
theorem openRanges_eq_nil_iff {x : Matrix Float} {indices : List Nat} :
    openRanges x.width (indices.map x.row) = [] ↔
      ∀ feature < x.width, ¬ HasSpan (x.values indices feature) := by
  rw [openRanges, List.filter_eq_nil_iff, List.forall_mem_map]
  simp only [List.mem_range, Matrix.values_eq, Range.isOpen_iff_hasSpan]

/-- An open range is one of a column with a span. -/
theorem hasSpan_of_mem_openRanges {x : Matrix Float} {indices : List Nat} {range : Range}
    (h : range ∈ openRanges x.width (indices.map x.row)) :
    HasSpan (x.values indices range.feature) := by
  obtain ⟨hmem, hopen⟩ := List.mem_filter.mp h
  obtain ⟨feature, -, rfl⟩ := List.mem_map.mp hmem
  rw [Range.feature_ofRows, Matrix.values_eq]
  exact Range.isOpen_iff_hasSpan.mp hopen

/-- How a row of the matrix turns. -/
theorem exists_turn {x : Matrix Float} {k feature : Nat} (hk : k < x.height)
    (hfeature : feature < x.width) (threshold : Float) : ∃ v, x.entry? k feature = some v ∧
      goesLeft feature threshold (x.row k) = decide (v < threshold) := by
  obtain ⟨v, hentry, hvalue⟩ := Matrix.exists_entry hk hfeature
  exact ⟨v, hentry, by rw [goesLeft, hvalue, Option.any_some]⟩

namespace Tree

/-- The indices whose rows come by the end of a way. -/
def visitors (t : Tree) (x : Matrix Float) (indices : List Nat) (way : List Bool) : List Nat :=
  indices.filter fun k => t.passes way (x.row k)

/-- Why the rows with the indices `here` make a leaf, when growth comes to them with the generator
`g`: it is at the limit, or there is one row at most, or no column of them has a span, or the one
column and threshold that are drawn leave one side empty. -/
structure ClosedAt {γ : Type} [Draws γ] (x : Matrix Float) (limit : Nat) (here : List Nat) (g : γ)
    (l : Leaf) : Prop where
  size : l.size = here.length
  reason : 1 < l.size → l.depth < limit →
    (∀ feature < x.width, ¬ HasSpan (x.values here feature)) ∨
    ∃ range threshold g', drawn? x.width (here.map x.row) g = some (range, threshold, g') ∧
      ((∀ k ∈ here, goesLeft range.feature threshold (x.row k) = false) ∨
        ∀ k ∈ here, goesLeft range.feature threshold (x.row k) = true)

/-- How the rows with the indices `here` are split: by a column with a span, into those whose value
is less than the threshold and those whose value is not, with some on either side. -/
structure SplitAt (x : Matrix Float) (here left right : List Nat) (feature : Nat)
    (threshold : Float) : Prop where
  feature_lt : feature < x.width
  hasSpan : HasSpan (x.values here feature)
  left_ne_nil : left ≠ []
  right_ne_nil : right ≠ []
  left_lt : ∀ k ∈ left, ∃ v, x.entry? k feature = some v ∧ v < threshold
  right_not_lt : ∀ k ∈ right, ∃ v, x.entry? k feature = some v ∧ ¬ v < threshold

section Build

variable {γ : Type} [Draws γ] {x : Matrix Float} {indices : List Nat} {depth limit : Nat} {g : γ}
  {way : List Bool}

theorem build_eq (hindices : ∀ k ∈ indices, k < x.height) : (build x indices depth limit g).1 =
    (grow x.width (limit - depth) depth (indices.map x.row) g).1 := by
  rw [build, Matrix.select_eq hindices]

/-- A subtree of the tree of some rows is what grows from those that come by it. -/
theorem subtree?_build (hindices : ∀ k ∈ indices, k < x.height) {t : Tree}
    (h : (build x indices depth limit g).1.subtree? way = some t) : way.length ≤ limit - depth ∧
      t = (grow x.width (limit - depth - way.length) (depth + way.length)
        (((build x indices depth limit g).1.visitors x indices way).map x.row)
        (generatorAt x.width (limit - depth) depth (indices.map x.row) g way)).1 := by
  have hrows : (indices.map x.row).filter ((build x indices depth limit g).1.passes way) =
      ((build x indices depth limit g).1.visitors x indices way).map x.row := List.filter_map
  rw [← hrows]
  rw [build_eq hindices] at h ⊢
  exact subtree?_grow h

theorem leafAt?_build (hindices : ∀ k ∈ indices, k < x.height) {l : Leaf}
    (h : (build x indices depth limit g).1.leafAt? way = some l) :
    l.depth = depth + way.length ∧ l.depth ≤ max depth limit ∧
      ClosedAt x limit ((build x indices depth limit g).1.visitors x indices way)
        (generatorAt x.width (limit - depth) depth (indices.map x.row) g way) l := by
  obtain ⟨hlength, hgrow⟩ := subtree?_build hindices (subtree?_eq_some_leaf.mpr h)
  obtain ⟨rfl, hreason⟩ := leaf_grow hgrow.symm
  refine ⟨rfl, by dsimp only; omega, List.length_map _, fun hmany habove => ?_⟩
  dsimp only at hmany habove
  rcases hreason (by omega) with hfew | hclosed | ⟨range, threshold, g', hdrawn, hside⟩
  · omega
  · exact .inl (openRanges_eq_nil_iff.mp hclosed)
  · refine .inr ⟨range, threshold, g', hdrawn, ?_⟩
    simpa [List.filter_eq_nil_iff] using hside

theorem splitAt_build (hindices : ∀ k ∈ indices, k < x.height) {feature : Nat} {threshold : Float}
    {left right : Tree} (h : (build x indices depth limit g).1.subtree? way =
      some (.split feature threshold left right)) :
    SplitAt x ((build x indices depth limit g).1.visitors x indices way)
      ((build x indices depth limit g).1.visitors x indices (way ++ [true]))
      ((build x indices depth limit g).1.visitors x indices (way ++ [false]))
      feature threshold := by
  obtain ⟨-, hgrow⟩ := subtree?_build hindices h
  obtain ⟨⟨range, hrange, rfl⟩, hleft, hright⟩ := split_grow hgrow.symm
  have hfeature := (openRanges_spec hrange).1
  -- those that come by a part are those that turn to it
  have hpart : ∀ turn, (build x indices depth limit g).1.visitors x indices (way ++ [turn]) =
      ((build x indices depth limit g).1.visitors x indices way).filter fun k =>
        goesLeft range.feature threshold (x.row k) == turn := by
    intro turn
    rw [visitors, visitors, List.filter_filter]
    refine List.filter_congr fun k _ => ?_
    rw [passes_concat h, Bool.and_comm]
  have hturn := fun {k} (hk : k ∈ (build x indices depth limit g).1.visitors x indices way) =>
    exists_turn (hindices k (List.mem_of_mem_filter hk)) hfeature threshold
  rw [List.filter_map, ne_eq, List.map_eq_nil_iff] at hleft hright
  rw [hpart, hpart]
  constructor
  case feature_lt => exact hfeature
  case hasSpan => exact hasSpan_of_mem_openRanges hrange
  case left_ne_nil => simpa [Function.comp_def] using hleft
  case right_ne_nil => simpa [Function.comp_def] using hright
  case left_lt =>
    intro k hk
    obtain ⟨hk, hleft⟩ := List.mem_filter.mp hk
    obtain ⟨v, hentry, hv⟩ := hturn hk
    exact ⟨v, hentry, of_decide_eq_true (hv.symm.trans (eq_of_beq hleft))⟩
  case right_not_lt =>
    intro k hk
    obtain ⟨hk, hright⟩ := List.mem_filter.mp hk
    obtain ⟨v, hentry, hv⟩ := hturn hk
    exact ⟨v, hentry, of_decide_eq_false (hv.symm.trans (eq_of_beq hright))⟩

end Build

/-- The shape of the tree of some rows of a matrix, given by their indices. A leaf lies as deep as
the way to it is long, not below the limit, and counts the rows that come to it, of which there is
one at least; above the limit more of them stay together only for a reason (`ClosedAt`). A split
tells its rows apart (`SplitAt`). Rows of like values, as rows with the same bits are, end in one
leaf. And there are no more leaves than distinct rows, nor more than the levels allow. -/
theorem build_shape {γ : Type} [Draws γ] (x : Matrix Float) (indices : List Nat)
    (depth limit : Nat) (g : γ) (hindices : ∀ k ∈ indices, k < x.height) :
    let t := (build x indices depth limit g).1
    (∀ way l, t.leafAt? way = some l →
      l.depth = depth + way.length ∧ l.depth ≤ max depth limit ∧
      ClosedAt x limit (t.visitors x indices way)
        (generatorAt x.width (limit - depth) depth (indices.map x.row) g way) l ∧
      (indices ≠ [] → 1 ≤ l.size)) ∧
    (∀ way feature threshold left right,
      t.subtree? way = some (.split feature threshold left right) →
      SplitAt x (t.visitors x indices way) (t.visitors x indices (way ++ [true]))
        (t.visitors x indices (way ++ [false])) feature threshold) ∧
    (∀ k k', List.Forall₂ Alike (x.row k) (x.row k') → t.route (x.row k) = t.route (x.row k')) ∧
    (indices ≠ [] → t.leaves.length ≤ (forms (indices.map x.row)).card) ∧
    t.leaves.length ≤ 2 ^ (limit - depth) := by
  intro t
  have hbuild : t = _ := build_eq hindices
  refine ⟨fun way l hl => ?_, fun way feature threshold left right => splitAt_build hindices,
    fun k k' halike => t.route_of_alike halike, fun hne => ?_, ?_⟩
  · obtain ⟨hdepth, hlimit, hclosed⟩ := leafAt?_build hindices hl
    refine ⟨hdepth, hlimit, hclosed, fun hne => ?_⟩
    have hmem := mem_leaves_iff.mpr ⟨way, hl⟩
    rw [hbuild] at hmem
    exact one_le_size_leaves_grow _ _ _ g (List.map_eq_nil_iff.not.mpr hne) hmem
  · rw [hbuild]
    exact length_leaves_grow_le _ _ _ g (List.map_eq_nil_iff.not.mpr hne)
  · rw [hbuild]
    exact length_leaves_grow_le_two_pow ..

/-- Five rows of three forms, one of which is no number. -/
theorem build_shape_mixedColumn :
    let t := (build mixedColumn [0, 1, 2, 1, 0] 1 4 (Random.Generator.ofSeed 7)).1
    (∀ way l, t.leafAt? way = some l → l.depth = 1 + way.length ∧ l.depth ≤ 4 ∧ 1 ≤ l.size) ∧
      t.leaves.length ≤ 3 := by
  have hindices : ∀ k ∈ [0, 1, 2, 1, 0], k < mixedColumn.height := by decide
  obtain ⟨hleaf, -, -, hforms, -⟩ :=
    build_shape mixedColumn [0, 1, 2, 1, 0] 1 4 (Random.Generator.ofSeed 7) hindices
  have hcard : (forms ([0, 1, 2, 1, 0].map mixedColumn.row)).card = 3 := by decide +kernel
  refine ⟨fun way l hl => ?_, hcard ▸ hforms (List.cons_ne_nil _ _)⟩
  obtain ⟨hdepth, hlimit, -, hsize⟩ := hleaf way l hl
  exact ⟨hdepth, hlimit, hsize (List.cons_ne_nil _ _)⟩

end Tree

end LoginForest
