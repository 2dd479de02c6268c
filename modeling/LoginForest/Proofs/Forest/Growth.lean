/-
  How trees grow. A step ends in a leaf or splits the rows as drawn (`grow_step`), which is by an
  open range (`grow_cases`), so that splits ask for features of the matrix only (`grow_fits`),
  whatever is drawn. Trees that are grown on a sample can be stored: they are no deeper than the
  binary logarithm of its size allows, their thresholds are finite, and their counts fit a word
  (`ofSeed_storable`).
-/
import LoginForest.Forest.Detector
import LoginForest.Proofs.Bundle.RoundTrip
import LoginForest.Proofs.Random

namespace LoginForest

open Number (twoTo)
open LoginForest.Random (Draws Generator)

theorem Matrix.length_select_le {α : Type} (x : Matrix α) (indices : List Nat) :
    (x.select indices).length ≤ indices.length :=
  List.length_filterMap_le ..

/-! ## Ranges -/

theorem Range.feature_ofRows (feature : Nat) (rows : List (List Float)) :
    (Range.ofRows feature rows).feature = feature := by
  unfold ofRows
  dsimp only
  generalize rows.filterMap (·[feature]?) = values
  have hfold : ∀ r : Range, (values.foldl
      (fun r v => { r with low := if v < r.low then v else r.low
                           high := if r.high < v then v else r.high }) r).feature = r.feature := by
    induction values with
    | nil => intro r; rfl
    | cons v values ih => intro r; rw [List.foldl_cons, ih]
  exact hfold _

/-- A range that can be split is one of a column, with different ends and a finite distance. -/
theorem openRanges_spec {width : Nat} {rows : List (List Float)} {range : Range}
    (h : range ∈ openRanges width rows) : range.feature < width ∧ range.low < range.high ∧
      (range.high - range.low).isFinite := by
  unfold openRanges at h
  rw [List.mem_filter] at h
  obtain ⟨hmem, hopen⟩ := h
  obtain ⟨feature, hfeature, rfl⟩ := List.mem_map.mp hmem
  rw [Range.isOpen, Bool.and_eq_true, decide_eq_true_eq] at hopen
  rw [Range.feature_ofRows]
  exact ⟨List.mem_range.mp hfeature, hopen⟩

/-! ## One step -/

namespace Tree

section Steps

variable {γ : Type} [Draws γ]

/-- What is drawn to split some rows: an open range, a threshold from it, and the generator after
both draws. Nothing is drawn where no range is open. -/
def drawn? (width : Nat) (rows : List (List Float)) (g : γ) : Option (Range × Float × γ) :=
  match openRanges width rows with
  | [] => none
  | first :: others =>
    let (i, g) := Draws.below (others.length + 1) g
    let range := (first :: others).getD i first
    let (threshold, g) := Draws.between range.low range.high g
    some (range, threshold, g)

theorem drawn?_spec {width : Nat} {rows : List (List Float)} {g g' : γ} {range : Range}
    {threshold : Float} (h : drawn? width rows g = some (range, threshold, g')) :
    range ∈ openRanges width rows ∧
      ∃ g₁ : γ, (threshold, g') = Draws.between range.low range.high g₁ := by
  unfold drawn? at h
  cases hranges : openRanges width rows with
  | nil => rw [hranges] at h; cases h
  | cons first others =>
    rw [hranges] at h
    have hmem : ∀ i, (first :: others).getD i first ∈ first :: others := by
      intro i
      rw [List.getD_eq_getElem?_getD]
      cases hi : (first :: others)[i]? with
      | none => exact List.mem_cons_self
      | some range => exact List.mem_of_getElem? hi
    obtain ⟨rfl, hdraw⟩ := Prod.mk.inj (Option.some.inj h)
    exact ⟨hmem _, _, hdraw.symm⟩

theorem drawn?_eq_none {width : Nat} {rows : List (List Float)} {g : γ}
    (h : drawn? width rows g = none) : openRanges width rows = [] := by
  unfold drawn? at h
  cases hranges : openRanges width rows with
  | nil => rfl
  | cons first others => rw [hranges] at h; cases h

/-- What becomes of rows that are split as drawn: a leaf of them all if one part is empty. Or else
both parts grow, the right one with the generator that the left one leaves. -/
def splitAs (width room depth : Nat) (rows : List (List Float)) (draw : Range × Float × γ) :
    Tree × γ :=
  let left := rows.filter (goesLeft draw.1.feature draw.2.1)
  let right := rows.filter fun row => !goesLeft draw.1.feature draw.2.1 row
  if left.isEmpty || right.isEmpty then (.leaf ⟨depth, rows.length⟩, draw.2.2)
  else
    let l := grow width room (depth + 1) left draw.2.2
    let r := grow width room (depth + 1) right l.2
    (.split draw.1.feature draw.2.1 l.1 r.1, r.2)

/-- A step of growth: rows that are more than one are split as drawn, if anything is drawn. -/
theorem grow_succ (width room depth : Nat) (rows : List (List Float)) (g : γ) :
    grow width (room + 1) depth rows g =
      if rows.length ≤ 1 then (.leaf ⟨depth, rows.length⟩, g)
      else (drawn? width rows g).elim (.leaf ⟨depth, rows.length⟩, g)
        (splitAs width room depth rows) := by
  rw [grow]
  unfold drawn?
  cases openRanges width rows with
  | nil => rfl
  | cons first others =>
    dsimp only
    generalize Draws.below (others.length + 1) g = draw
    obtain ⟨i, g₁⟩ := draw
    dsimp only
    generalize (first :: others).getD i first = range
    generalize Draws.between range.low range.high g₁ = draw
    obtain ⟨threshold, g₂⟩ := draw
    rw [List.partition_eq_filter_filter]
    rfl

/-- A step closes a leaf of all the rows, for they are few, no range is open or one part is empty;
or it splits them as drawn, and the left part grows before the right one. -/
theorem grow_step (width room depth : Nat) (rows : List (List Float)) (g : γ) :
    (grow width (room + 1) depth rows g).1 = .leaf ⟨depth, rows.length⟩ ∧
      (rows.length ≤ 1 ∨ openRanges width rows = [] ∨
        ∃ range threshold g', drawn? width rows g = some (range, threshold, g') ∧
          (rows.filter (goesLeft range.feature threshold) = [] ∨
            rows.filter (fun row => !goesLeft range.feature threshold row) = [])) ∨
    ∃ range threshold g', drawn? width rows g = some (range, threshold, g') ∧
      let left := rows.filter (goesLeft range.feature threshold)
      let right := rows.filter (fun row => !goesLeft range.feature threshold row)
      left ≠ [] ∧ right ≠ [] ∧ (grow width (room + 1) depth rows g).1 =
        .split range.feature threshold (grow width room (depth + 1) left g').1
          (grow width room (depth + 1) right (grow width room (depth + 1) left g').2).1 := by
  rw [grow_succ]
  split
  case isTrue hfew => exact .inl ⟨rfl, .inl hfew⟩
  case isFalse =>
    cases hdrawn : drawn? width rows g with
    | none => exact .inl ⟨rfl, .inr (.inl (drawn?_eq_none hdrawn))⟩
    | some draw =>
      obtain ⟨range, threshold, g'⟩ := draw
      rw [Option.elim_some, splitAs]
      dsimp only
      split
      case isTrue hempty =>
        rw [Bool.or_eq_true, List.isEmpty_iff, List.isEmpty_iff] at hempty
        exact .inl ⟨rfl, .inr (.inr ⟨range, threshold, g', rfl, hempty⟩)⟩
      case isFalse hne =>
        rw [Bool.or_eq_true, not_or, List.isEmpty_iff, List.isEmpty_iff] at hne
        exact .inr ⟨range, threshold, g', rfl, hne.1, hne.2, rfl⟩

end Steps

/-- A tree is a leaf of all the rows, or splits an open range so that neither part is empty. -/
theorem grow_cases {γ : Type} [Draws γ] (width room depth : Nat) (rows : List (List Float))
    (g : γ) : (grow width (room + 1) depth rows g).1 = .leaf ⟨depth, rows.length⟩ ∨
      ∃ range ∈ openRanges width rows, ∃ g₁ g₂ g₃ : γ,
        let threshold := (Draws.between range.low range.high g₁).1
        let left := rows.filter (goesLeft range.feature threshold)
        let right := rows.filter (fun row => !goesLeft range.feature threshold row)
        left ≠ [] ∧ right ≠ [] ∧ (grow width (room + 1) depth rows g).1 =
          .split range.feature threshold (grow width room (depth + 1) left g₂).1
            (grow width room (depth + 1) right g₃).1 := by
  rcases grow_step width room depth rows g with
    ⟨hleaf, -⟩ | ⟨range, threshold, g', hdrawn, hleft, hright, hsplit⟩
  · exact .inl hleaf
  · obtain ⟨hrange, g₁, hdraw⟩ := drawn?_spec hdrawn
    obtain rfl : threshold = (Draws.between range.low range.high g₁).1 := congrArg Prod.fst hdraw
    exact .inr ⟨range, hrange, g₁, _, _, hleft, hright, hsplit⟩

/-! ## Whole trees -/

/-- Every split asks for one of the first `width` features. -/
def Fits (width : Nat) : Tree → Prop
  | .leaf _ => True
  | .split feature _ left right => feature < width ∧ left.Fits width ∧ right.Fits width

/-- A tree that fits admits every row of the width. -/
theorem Fits.admits {width : Nat} {t : Tree} (h : t.Fits width) {row : List Float}
    (hrow : row.length = width) : t.admits row = true := by
  induction t with
  | leaf l => rfl
  | split feature threshold left right ihl ihr =>
    obtain ⟨hfeature, hleft, hright⟩ := h
    rw [Tree.admits, Bool.and_eq_true, decide_eq_true_eq, hrow]
    refine ⟨hfeature, ?_⟩
    split
    · exact ihl hleft
    · exact ihr hright

/-- What grows on a matrix fits it. -/
theorem grow_fits {γ : Type} [Draws γ] (width room depth : Nat) (rows : List (List Float))
    (g : γ) : (grow width room depth rows g).1.Fits width := by
  induction room generalizing depth rows g with
  | zero => exact trivial
  | succ room ih =>
    rcases grow_cases width room depth rows g with
      hleaf | ⟨range, hrange, g₁, g₂, g₃, -, -, hsplit⟩
    · rw [hleaf]
      exact trivial
    · rw [hsplit]
      exact ⟨(openRanges_spec hrange).1, ih _ _ g₂, ih _ _ g₃⟩

/-- A tree has as many levels as there is room for at most, and can be stored. -/
theorem grow_storable {width room depth : Nat} {rows : List (List Float)}
    (hwidth : width ≤ twoTo 64) (hdepth : depth + room < twoTo 64)
    (hrows : rows.length < twoTo 64) (g : Generator) :
    (grow width room depth rows g).1.Storable ∧
      (grow width room depth rows g).1.levels ≤ room + 1 := by
  induction room generalizing depth rows g with
  | zero => exact ⟨⟨hdepth, hrows⟩, le_rfl⟩
  | succ room ih =>
    rcases grow_cases width room depth rows g with
      hleaf | ⟨range, hrange, g₁, g₂, g₃, -, -, hsplit⟩
    · rw [hleaf]
      have hleafDepth : depth < twoTo 64 := by omega
      exact ⟨⟨hleafDepth, hrows⟩, Nat.succ_le_succ (Nat.zero_le _)⟩
    · obtain ⟨hfeature, hlt, hdistance⟩ := openRanges_spec hrange
      have hthreshold : (Draws.between range.low range.high g₁).1.isFinite :=
        (Generator.between_spec hlt hdistance g₁).1
      have hpart : ∀ p : List Float → Bool, (rows.filter p).length < twoTo 64 := fun p =>
        (List.length_filter_le p rows).trans_lt hrows
      have hdepth' : depth + 1 + room < twoTo 64 := by omega
      obtain ⟨hleft, hleft'⟩ := ih hdepth' (hpart _) g₂
      obtain ⟨hright, hright'⟩ := ih hdepth' (hpart _) g₃
      rw [hsplit]
      refine ⟨⟨by omega, hthreshold, hleft, hright⟩, ?_⟩
      unfold levels
      exact Nat.succ_le_succ (max_le hleft' hright')

end Tree

/-! ## Forests -/

namespace Forest

/-- All trees ask for features of the forest's columns only. -/
def Fits (f : Forest) : Prop := ∀ t ∈ f.trees, t.Fits f.width

theorem Fits.admits {f : Forest} (h : f.Fits) {x : Matrix Float} (hx : x.width = f.width) :
    f.admits x = true := by
  unfold Forest.admits
  rw [List.all_eq_true]
  intro row hrow
  rw [List.all_eq_true]
  intro t ht
  exact (h t ht).admits ((x.width_eq row hrow).trans hx)

/-- A forest that fits scores every matrix of its width. -/
theorem Fits.score_eq [Elementary] {f : Forest} (h : f.Fits) {x : Matrix Float}
    (hx : x.width = f.width) : f.score x = .ok (x.rows.map f.scoreRow) := by
  unfold score
  rw [if_pos hx, if_pos (h.admits hx)]

theorem fits_grow [Elementary] (x : Matrix Float) (trees sampleSize : Nat)
    (contamination : Contamination) (seed : UInt64) :
    (grow x trees sampleSize contamination seed).Fits := by
  intro t ht
  obtain ⟨seed, -, rfl⟩ := List.mem_map.mp ht
  exact Tree.grow_fits ..

end Forest

theorem Detector.fits_grown [Elementary] (d : Detector) (chance : UInt64) (x : Matrix Float) :
    (d.grown chance x).Fits := by
  have hgrow := Forest.fits_grow x d.trees (d.sampleSize.resolve x.height) d.contamination
    (d.seed.getD chance)
  unfold grown Forest.calibrate
  -- only the threshold is set anew
  split
  · exact hgrow
  · exact fun t ht => hgrow t ht

theorem ceilLog2_le {n k : Nat} (h : n ≤ 2 ^ k) : ceilLog2 n ≤ k := by
  unfold ceilLog2
  split
  case isTrue => exact Nat.zero_le k
  case isFalse hn =>
    have hlog : (n - 1).log2 < k := (Nat.log2_lt (by omega)).mpr (by omega)
    omega

/-- The tree of a seed can be stored. -/
theorem Tree.ofSeed_storable {x : Matrix Float} {sampleSize : Nat} (hwidth : x.width ≤ twoTo 64)
    (hsample : sampleSize ≤ 2 ^ 60) (seed : UInt64) :
    (Tree.ofSeed x sampleSize seed).Storable ∧
      (Tree.ofSeed x sampleSize seed).levels ≤ Forest.treeLevels := by
  have hlevels := ceilLog2_le hsample
  have hrows : (x.select (Random.sample x.height sampleSize (.ofSeed seed)).1).length <
      twoTo 64 := by
    have h1 := x.length_select_le (Random.sample x.height sampleSize (.ofSeed seed)).1
    have h2 := Random.length_sample_le x.height sampleSize (.ofSeed seed)
    rw [Number.twoTo_64]
    omega
  have hdepth : 0 + (ceilLog2 sampleSize - 0) < twoTo 64 := by
    rw [Number.twoTo_64]
    omega
  obtain ⟨hstorable, hlevels'⟩ := grow_storable hwidth hdepth hrows
    (Random.sample x.height sampleSize (.ofSeed seed)).2
  refine ⟨hstorable, hlevels'.trans ?_⟩
  have hlimit : Forest.treeLevels = 62 := by decide
  omega

end LoginForest
