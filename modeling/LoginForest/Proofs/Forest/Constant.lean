/-
  A constant baseline. Rows of the same bits go the same way at every split, so they are never
  split, and the trees that grow on them are single leaves (`Tree.grow_of_sameBits`): any row has
  one score, whatever its values are. A quantile of equal values is their value, however its
  position is rounded (`quantile_replicate`), so the threshold is that score, and no row is above
  it (`Detector.fit_constant`).
-/
import LoginForest.Proofs.Forest.Shape
import LoginForest.Proofs.Forest.Threshold
import LoginForest.Proofs.Stats.Middle

namespace LoginForest

open Number

/-! ## Zeros -/

section Zeros

variable {v z f : Float}

/-- Only the negative zero is changed by adding zero. -/
theorem add_zero_of_ne (h : v ≠ -ofNat 0) : v + ofNat 0 = v := by
  have hzero : parts (ofNat 0) = .finite false 0 (-1074) := by decide +kernel
  cases hv : parts v with
  | nan =>
    rw [add_eq_packed, hv, ← packed_parts v, hv]
    rfl
  | infinite negative =>
    rw [add_eq_packed, hv, hzero, add_infinite_finite, ← packed_parts v, hv]
    rfl
  | finite negative m e =>
    have hfinite := isFinite_of_parts hv
    obtain ⟨hsum, hvalue⟩ := (isRounding_add hfinite isFinite_zero).value_eq hfinite
      (by rw [value_zero, add_zero])
    by_cases h0 : value v = 0
    · obtain rfl := (eq_zero_of_value hfinite h0).resolve_right h
      exact eq_of_toBits_eq (by decide +kernel)
    · exact eq_of_value_eq hsum hfinite hvalue (by rwa [hvalue])

/-- A number that is not changed by adding zero is not changed by the other zero either. -/
theorem add_eq_self (hv : v.isFinite) (hsum : v + ofNat 0 = v) (hz : z.isFinite)
    (h : value z = 0) : v + z = v := by
  by_cases hv0 : value v = 0
  · rcases eq_zero_of_value hz h with rfl | rfl
    · exact hsum
    · rcases eq_zero_of_value hv hv0 with rfl | rfl
      · exact eq_of_toBits_eq (by decide +kernel)
      · have hplus : (-ofNat 0 + ofNat 0 : Float).toBits ≠ (-ofNat 0 : Float).toBits := by
          decide +kernel
        exact absurd (congrArg Float.toBits hsum) hplus
  · obtain ⟨hfinite, hvalue⟩ := (isRounding_add hv hz).value_eq hv (by rw [h, add_zero])
    exact eq_of_value_eq hfinite hv hvalue (by rwa [hvalue])

/-- Between a number and itself there is nothing else. -/
theorem interpolate_self (hv : v.isFinite) (hsum : v + ofNat 0 = v) (hf : f.isFinite) :
    interpolate v v f = v := by
  have hdistance := (isRounding_sub hv hv).value_eq isFinite_zero (by rw [sub_self, value_zero])
  have hway := (isRounding_mul hdistance.1 hf).value_eq isFinite_zero
    (by rw [hdistance.2, value_zero, zero_mul])
  have hvalue : v + (v - v) * f = v := add_eq_self hv hsum hway.1 (hway.2.trans value_zero)
  unfold interpolate
  dsimp only
  rw [hvalue]
  exact if_pos hv

end Zeros

/-! ## Quantiles of equal values -/

/-- The `q`-quantile of `n` values is looked for among them. -/
structure HasPlace (q : Float) (n : Nat) : Prop where
  isFinite : (position q (n - 1)).isFinite
  nonneg : 0 ≤ value (position q (n - 1))
  le : value (position q (n - 1)) ≤ (n - 1 : ℕ)

section Quantiles

variable {q v : Float} {n : Nat}

theorem IsShare.hasPlace (hq : IsShare q) (hn : n ≤ 2 ^ 64) : HasPlace q n := by
  obtain ⟨hfinite, h0, hle⟩ := position_le hq (isFinite_ofNat_pred hn)
  exact ⟨hfinite, h0, hle⟩

/-- Numbers up to `2^53` are not rounded, so of no more values even the last one has its place. -/
theorem hasPlace_of_le (hq : q.isFinite) (hn : n ≤ 2 ^ 53) : HasPlace q n := by
  obtain ⟨hclamp, h0, h1⟩ := clampUnit_spec hq
  obtain ⟨hlast, hvalue⟩ := value_ofNat (n := n - 1) (by rw [twoTo_53]; omega)
  have hpred : (0 : ℚ) ≤ (n - 1 : ℕ) := Nat.cast_nonneg _
  have hproduct := isRounding_mul hclamp hlast
  rw [hvalue] at hproduct
  obtain ⟨hfinite, hlow, hhigh⟩ := hproduct.between isFinite_zero hlast
    (by rw [value_zero]; exact mul_nonneg h0 hpred)
    (by rw [hvalue]; exact mul_le_of_le_one_left hpred h1)
  rw [value_zero] at hlow
  rw [hvalue] at hhigh
  exact ⟨hfinite, hlow, hhigh⟩

/-- What is left beside a share of up to one half has its place: among up to `2^53` values, or as
many as a word counts if the share can be held to. -/
theorem hasPlace_rest {c : Float} (h0 : ofNat 0 < c) (h1 : c ≤ nearest false 1 2)
    (hn : n ≤ 2 ^ 53 ∨ nearest false 1 (twoTo 52) ≤ c ∧ n ≤ 2 ^ 64) :
    HasPlace (ofNat 1 - c) n := by
  rcases hn with hn | ⟨hlow, hn⟩
  · obtain ⟨hgreatest, hvalue⟩ := IsContamination.value_greatest
    have hc := isFinite_of_le_of_le isFinite_zero hgreatest (le_of_lt h0) h1
    rw [lt_iff_value isFinite_zero hc, value_zero] at h0
    rw [le_iff_value hc hgreatest, hvalue] at h1
    have hrest := isRounding_sub isFinite_one hc
    rw [value_one] at hrest
    refine hasPlace_of_le (hrest.between isFinite_zero isFinite_one ?_ ?_).1 hn
    · rw [value_zero]
      linarith
    · rw [value_one]
      linarith
  · exact (IsContamination.of_bounds hlow h1).isShare_rest.1.hasPlace hn

theorem quantileSorted_replicate (h : HasPlace q n) (hn : 0 < n) (hv : v.isFinite)
    (hsum : v + ofNat 0 = v) : quantileSorted (List.replicate n v) q = some v := by
  have hposition : clampUnit q * Scalar.count (n - 1) = position q (n - 1) := rfl
  have hhigh : ⌈value (position q (n - 1))⌉₊ ≤ n - 1 := Nat.ceil_le.mpr h.le
  have hlow := (Nat.floor_le_ceil (value (position q (n - 1)))).trans hhigh
  unfold quantileSorted
  dsimp only
  rw [List.length_replicate, hposition,
    show Scalar.floor (position q (n - 1)) = ⌊value (position q (n - 1))⌋₊ from
      wholePart_eq_floor h.isFinite h.nonneg,
    show Scalar.ceiling (position q (n - 1)) = ⌈value (position q (n - 1))⌉₊ from
      wholeAbove_eq_ceil h.isFinite h.nonneg,
    List.getElem?_replicate_of_lt (by omega), List.getElem?_replicate_of_lt (by omega)]
  refine congrArg some ?_
  split
  case isTrue => rfl
  case isFalse hnot =>
    rw [Bool.or_eq_true, not_or, beq_iff_eq] at hnot
    have hshare := (fraction_spec h.isFinite h.nonneg hnot.1).1
    rw [fraction, wholePart_eq_floor h.isFinite h.nonneg] at hshare
    exact interpolate_self hv hsum hshare.isFinite

theorem quantile_replicate (h : HasPlace q n) (hn : 0 < n) (hv : v.isFinite)
    (hsum : v + ofNat 0 = v) : quantile (List.replicate n v) q = some v := by
  have hnumbers : (List.replicate n v).filter Scalar.isNumber = List.replicate n v :=
    filter_isNumber fun x hx => (List.eq_of_mem_replicate hx) ▸ hv
  have hsorted : ascending (List.replicate n v) = List.replicate n v :=
    List.perm_replicate.mp (perm_ascending _)
  rw [quantile, hnumbers, hsorted, quantileSorted_replicate h hn hv hsum]

end Quantiles

/-! ## Rows of the same bits -/

/-- All rows have the same bits. -/
def SameBits (rows : List (List Float)) : Prop :=
  ∀ row ∈ rows, ∀ row' ∈ rows, row.map Float.toBits = row'.map Float.toBits

theorem SameBits.select {x : Matrix Float} (h : SameBits x.rows) (indices : List Nat) :
    SameBits (x.select indices) := by
  have hmem : ∀ row ∈ x.select indices, row ∈ x.rows := by
    intro row hrow
    obtain ⟨k, -, hk⟩ := List.mem_filterMap.mp hrow
    rw [List.getElem?_toArray] at hk
    exact List.mem_of_getElem? hk
  exact fun row hrow row' hrow' => h row (hmem row hrow) row' (hmem row' hrow')

namespace Tree

/-- Rows of the same bits stay together. -/
theorem grow_of_sameBits {γ : Type} [Random.Draws γ] {rows : List (List Float)} (h : SameBits rows)
    (width room depth : Nat) (g : γ) :
    (grow width room depth rows g).1 = .leaf ⟨depth, rows.length⟩ := by
  cases room with
  | zero => rfl
  | succ room =>
    rcases grow_cases width room depth rows g with
      hleaf | ⟨range, -, g₁, -, -, hleft, hright, -⟩
    · exact hleaf
    · obtain ⟨row, hrow⟩ := List.exists_mem_of_ne_nil _ hleft
      obtain ⟨row', hrow'⟩ := List.exists_mem_of_ne_nil _ hright
      obtain ⟨hrow, hturn⟩ := List.mem_filter.mp hrow
      obtain ⟨hrow', hturn'⟩ := List.mem_filter.mp hrow'
      rw [goesLeft_of_alike (forall₂_alike (h row' hrow' row hrow)), hturn] at hturn'
      cases hturn'

/-- The tree of a sample is a leaf of all that is in the sample. -/
theorem ofSeed_of_sameBits {x : Matrix Float} (h : SameBits x.rows) {sampleSize : Nat}
    (hsize : sampleSize ≤ x.height) (seed : UInt64) :
    ofSeed x sampleSize seed = .leaf ⟨0, sampleSize⟩ := by
  have hsample := Random.isSample_sample hsize (.ofSeed seed)
  have hlength : (x.select (Random.sample x.height sampleSize (.ofSeed seed)).1).length =
      sampleSize := by
    rw [Matrix.select_eq hsample.lt, List.length_map, hsample.length]
  have hselect := grow_of_sameBits (h.select (Random.sample x.height sampleSize (.ofSeed seed)).1)
    x.width (ceilLog2 sampleSize - 0) 0 (Random.sample x.height sampleSize (.ofSeed seed)).2
  rw [hlength] at hselect
  exact hselect

end Tree

/-! ## Forests -/

section Scores

variable [Elementary]

/-- The score of any row in a forest whose trees are leaves of the whole sample. -/
def leafScore (trees sampleSize : Nat) : Float :=
  isolationScore (averagePathLength sampleSize)
    (List.replicate trees (Leaf.pathLength ⟨0, sampleSize⟩))

namespace Detector

variable {d : Detector} {x : Matrix Float}

theorem trees_grown_of_sameBits (h : SameBits x.rows) (hx : 1 ≤ x.height) (chance : UInt64) :
    (d.grown chance x).trees =
      List.replicate d.trees (.leaf ⟨0, d.sampleSize.resolve x.height⟩) := by
  refine List.eq_replicate_iff.mpr ⟨d.length_trees_grown chance x, fun t ht => ?_⟩
  rw [trees_grown_eq] at ht
  obtain ⟨seed, -, rfl⟩ := List.mem_map.mp ht
  exact Tree.ofSeed_of_sameBits h (d.sampleSize.resolve_le hx) seed

theorem scoreRow_grown_of_sameBits (h : SameBits x.rows) (hx : 1 ≤ x.height) (chance : UInt64)
    (row : List Float) : (d.grown chance x).scoreRow row =
      leafScore d.trees (d.sampleSize.resolve x.height) := by
  rw [Forest.scoreRow, trees_grown_of_sameBits h hx, expectedPathLength_grown, List.map_replicate]
  rfl

/-- Where all rows have one score, it is the threshold. -/
theorem threshold_grown_of_scoreRow {c v : Float} (hd : d.contamination = .fraction c)
    (hx : 1 ≤ x.height) (hplace : HasPlace (ofNat 1 - c) x.height) (hfinite : v.isFinite)
    (hsum : v + ofNat 0 = v) {chance : UInt64}
    (hrow : ∀ row, (d.grown chance x).scoreRow row = v) : (d.grown chance x).threshold = v := by
  have hscores : x.rows.map (d.grown chance x).scoreRow = List.replicate x.height v :=
    List.map_eq_replicate_iff.mpr fun row _ => hrow row
  rw [threshold_grown hd, hscores]
  show (quantile _ (ofNat 1 - c)).getD half = v
  rw [quantile_replicate hplace hx hfinite hsum, Option.getD_some]

/-- What a forest answers when it gives all rows one score, which is its threshold. -/
theorem detect_of_scoreRow {f : Forest} {v : Float} (hfinite : v.isFinite)
    (hrow : ∀ row, f.scoreRow row = v) (hthreshold : f.threshold = v) {y : Matrix Float}
    (hscore : f.score y = .ok (y.rows.map f.scoreRow)) :
    f.score y = .ok (List.replicate y.height v) ∧
      f.predict y = .ok (List.replicate y.height false) ∧
      { d with model := some f }.detect y =
        .ok ⟨List.replicate y.height v, List.replicate y.height false, v, 0⟩ := by
  have hscores : y.rows.map f.scoreRow = List.replicate y.height v :=
    List.map_eq_replicate_iff.mpr fun row _ => hrow row
  have hflags : f.flag (List.replicate y.height v) = List.replicate y.height false := by
    rw [Forest.flag, List.map_replicate, hthreshold, decide_eq_false]
    exact fun hlt => lt_irrefl _ ((lt_iff_value hfinite hfinite).mp hlt)
  rw [hscores] at hscore
  refine ⟨hscore, ?_, ?_⟩
  · rw [Forest.predict, hscore]
    exact congrArg Except.ok hflags
  · rw [detect_of_model hscore, hflags, hthreshold]
    simp

/-- A forest that is fitted to rows of the same bits has single leaves of the whole sample for its
trees. It gives one score to all rows of all matrices that it can score, whatever their values are;
this is its threshold, and no row is flagged. A power of two stays as it is when zero is added, a
word of 64 bits counts the trees and the rows, and there are no more than `2^53` rows if the
contamination is below the least one that a detector can be set up with. -/
theorem fit_constant [Elementary.Lawful] {c : Float} (hd : d.contamination = .fraction c)
    (h0 : ofNat 0 < c) (h1 : c ≤ nearest false 1 2) (htrees : 1 ≤ d.trees)
    (htrees' : d.trees ≤ 2 ^ 64)
    (hsum : ∀ p : Float, Elementary.twoToThe p + ofNat 0 = Elementary.twoToThe p)
    (h : SameBits x.rows) (hx : 1 ≤ x.height)
    (hx' : x.height ≤ 2 ^ 53 ∨ nearest false 1 (twoTo 52) ≤ c ∧ x.height ≤ 2 ^ 64)
    (chance : UInt64) :
    ∃ f v, d.fit chance x = .ok { d with model := some f } ∧
      f.sampleSize = d.sampleSize.resolve x.height ∧
      f.trees = List.replicate d.trees (.leaf ⟨0, f.sampleSize⟩) ∧ Within 0 v ∧
      f.threshold = v ∧ ∀ y : Matrix Float, y.width = x.width →
        f.score y = .ok (List.replicate y.height v) ∧
        f.predict y = .ok (List.replicate y.height false) ∧
        { d with model := some f }.detect y =
          .ok ⟨List.replicate y.height v, List.replicate y.height false, v, 0⟩ := by
  have hfew : x.height ≤ 2 ^ 64 := hx'.elim (fun hle => hle.trans (by decide)) And.right
  have hrow := scoreRow_grown_of_sameBits (d := d) h hx chance
  have hwithin := scoreRow_grown_within htrees htrees' hx hfew chance []
  rw [hrow] at hwithin
  have hthreshold := threshold_grown_of_scoreRow hd hx (hasPlace_rest h0 h1 hx') hwithin.1
    (hsum _) hrow
  have hnumber : d.contamination.IsNumber := by
    rw [hd]
    exact Bool.eq_false_iff.mpr (not_isNaN_of_le h1).1
  refine ⟨d.grown chance x, _, ?_, d.sampleSize_grown chance x, ?_, hwithin, hthreshold,
    fun y hy => detect_of_scoreRow hwithin.1 hrow hthreshold (d.score_grown chance hy)⟩
  · rw [fit, fitForest_eq (by omega) hnumber]
    rfl
  · rw [sampleSize_grown]
    exact trees_grown_of_sameBits h hx chance

end Detector

end Scores

namespace Detector

/-- Three rows of the largest number and what is no number. -/
def evenRows : Matrix Float where
  width := 2
  rows := List.replicate 3 [largest, ofNat 0 / ofNat 0]
  width_eq := by simp

/-- One row of the two infinities. -/
def infiniteRow : Matrix Float where
  width := 2
  rows := [[Float.ofBits 0x7ff0000000000000, Float.ofBits 0xfff0000000000000]]
  width_eq := by simp

/-- A share that no detector can be set up with. The path of every row is the expected one, so that
all of them score one half. -/
theorem fit_constant_evenRows :
    let d := { (standard.withTrees 2).withSampleSize (.count 2) with
      contamination := .fraction (nearest false 1 (twoTo 60)) }
    ∃ f, @fit Elementary.series d 7 evenRows = .ok { d with model := some f } ∧
      f.trees = [.leaf ⟨0, 2⟩, .leaf ⟨0, 2⟩] ∧ f.threshold = nearest false 1 2 ∧
      @Forest.score Elementary.series f infiniteRow = .ok [nearest false 1 2] ∧
      @Forest.predict Elementary.series f infiniteRow = .ok [false] := by
  intro d
  have h0 : ofNat 0 < nearest false 1 (twoTo 60) := by decide +kernel
  have h1 : nearest false 1 (twoTo 60) ≤ nearest false 1 2 := by decide +kernel
  have hsum : ∀ p : Float, @Elementary.twoToThe Elementary.series p + ofNat 0 =
      @Elementary.twoToThe Elementary.series p :=
    fun p => add_zero_of_ne (Elementary.twoToThe_series_ne p)
  have hrows : SameBits evenRows.rows := fun row hrow row' hrow' => by
    rw [List.eq_of_mem_replicate hrow, List.eq_of_mem_replicate hrow']
  obtain ⟨f, v, hfit, hsize, htrees, -, hthreshold, hscore⟩ :=
    @fit_constant Elementary.series d evenRows Elementary.lawful_series _ rfl h0 h1 (by decide)
      (by decide) hsum hrows (by decide) (.inl (by decide)) 7
  have hresolve : d.sampleSize.resolve evenRows.height = 2 := by decide
  rw [hsize, hresolve] at htrees
  obtain ⟨hinfinite, hflags, -⟩ := hscore infiniteRow rfl
  -- the score of that row, from its paths of two points in a sample of two
  obtain rfl : v = nearest false 1 2 := by
    obtain rfl : f = @grown Elementary.series d 7 evenRows :=
      Option.some.inj (congrArg Detector.model (@fit_eq_ok Elementary.series _ _ _ _ hfit))
    rw [@score_grown Elementary.series d 7 evenRows infiniteRow rfl] at hinfinite
    rw [← (List.cons.inj (Except.ok.inj hinfinite)).1]
    exact eq_of_toBits_eq (by decide +kernel)
  exact ⟨f, hfit, htrees, hthreshold, hinfinite, hflags⟩

end Detector

end LoginForest
