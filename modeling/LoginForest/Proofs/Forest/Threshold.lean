/-
  The threshold of a forest. A forest that is fitted with a share of anomalies takes for its
  threshold a quantile of its own scores. With nothing rounded (`Forest.exactThreshold`) the rows
  that score above it are no more than the share asks for, and just as many when no two rows score
  alike (`countP_contaminationThreshold`); with numbers, the count is off by one at most
  (`Detector.fit_flags_share`).
-/
import LoginForest.Proofs.Forest.Seeds
import LoginForest.Proofs.Scoring.Reopen
import LoginForest.Proofs.Stats.Ranked

namespace LoginForest

open Number

/-! ## Exact thresholds -/

/-- The threshold that the contamination asks for, with nothing rounded after the scores. -/
def Forest.exactThreshold [Elementary] (f : Forest) (x : Matrix Float) : ℚ :=
  match f.contamination with
  | .auto => half
  | .fraction c => contaminationThreshold ((x.rows.map f.scoreRow).map value) (value c)

section Exact

variable {scores : List ℚ} {c : ℚ}

theorem quantile_contaminationThreshold (hne : scores ≠ []) (h0 : 0 ≤ c) (h1 : c ≤ 1) :
    quantile scores (1 - c) = some (contaminationThreshold scores c) := by
  obtain ⟨t, ht, -⟩ := exists_quantile hne (sub_nonneg.mpr h1) (sub_le_self 1 h0)
  have hthreshold : contaminationThreshold scores c = (quantile scores (1 - c)).getD half := by
    rw [← Nat.cast_one (R := ℚ)]
    rfl
  rw [hthreshold, ht, Option.getD_some]

theorem countP_contaminationThreshold_le (hne : scores ≠ []) (h0 : 0 ≤ c) (h1 : c ≤ 1) :
    scores.countP (contaminationThreshold scores c < ·) ≤ ⌈rank c scores.length⌉₊ := by
  rw [← sub_floor_rank h0 h1 (List.length_pos_iff.mpr hne)]
  exact countP_quantile_le hne (sub_nonneg.mpr h1) (sub_le_self 1 h0)
    (quantile_contaminationThreshold hne h0 h1)

/-- Of scores that differ from one another just the share lies above the threshold. -/
theorem countP_contaminationThreshold (hne : scores ≠ []) (hdistinct : scores.Nodup) (h0 : 0 ≤ c)
    (h1 : c ≤ 1) :
    scores.countP (contaminationThreshold scores c < ·) = ⌈rank c scores.length⌉₊ := by
  rw [← sub_floor_rank h0 h1 (List.length_pos_iff.mpr hne)]
  exact countP_quantile hne hdistinct (sub_nonneg.mpr h1) (sub_le_self 1 h0)
    (quantile_contaminationThreshold hne h0 h1)

end Exact

/-! ## Shares of anomalies -/

/-- A share that a detector can be held to. -/
structure IsContamination (c : Float) : Prop where
  isFinite : c.isFinite
  ge : 2 ^ (-52 : Int) ≤ value c
  le : value c ≤ 1 / 2

namespace IsContamination

theorem value_least : (nearest false 1 (twoTo 52)).isFinite ∧
    value (nearest false 1 (twoTo 52)) = 2 ^ (-52 : Int) := by
  have h := isRounding_nearest Nat.one_pos (twoTo_pos 52)
  rw [twoTo_cast, Nat.cast_one, one_div, ← zpow_neg] at h
  exact h.exact (m := 1) (e := -52) (by decide) (by decide) (by decide)
    (by rw [Nat.cast_one, one_mul]; rfl)

theorem value_greatest : (nearest false 1 2).isFinite ∧ value (nearest false 1 2) = 1 / 2 := by
  have h := isRounding_nearest Nat.one_pos two_pos
  rw [Nat.cast_one, Nat.cast_ofNat] at h
  exact h.exact (m := 1) (e := -1) (by decide) (by decide) (by decide) (by norm_num)

/-- The bounds that a contamination is held between. -/
theorem of_bounds {c : Float} (hlow : nearest false 1 (twoTo 52) ≤ c)
    (hhigh : c ≤ nearest false 1 2) : IsContamination c := by
  have hfinite := isFinite_of_le_of_le value_least.1 value_greatest.1 hlow hhigh
  refine ⟨hfinite, ?_, ?_⟩
  · rw [← value_least.2]
    exact (le_iff_value value_least.1 hfinite).mp hlow
  · rw [← value_greatest.2]
    exact (le_iff_value hfinite value_greatest.1).mp hhigh

variable {c : Float} (h : IsContamination c)
include h

theorem nonneg : 0 ≤ value c := (two_zpow_pos _).le.trans h.ge

theorem le_one : value c ≤ 1 := h.le.trans (by norm_num)

theorem isNumber : (Contamination.fraction c).IsNumber :=
  Bool.eq_false_iff.mpr (not_isNaN_of_isFinite h.isFinite)

/-- What is left of the whole is a share, and rounded by little. -/
theorem isShare_rest : IsShare (ofNat 1 - c) ∧
    |value (ofNat 1 - c) - (1 - value c)| ≤ 2 ^ (-53 : Int) := by
  have hnearest := isNearest_sub isFinite_one h.isFinite
  rw [value_one] at hnearest
  obtain ⟨p, hp, hvalue⟩ := exists_value (m := twoTo 52 - 1) (e := -52) (by decide) (by decide)
    (by decide) false
  have hbefore : value p = 1 - 2 ^ (-52 : Int) := by
    rw [hvalue, signedValue_false, Nat.cast_sub (twoTo_pos 52), sub_mul, Nat.cast_one, one_mul,
      twoTo_cast, ← zpow_add₀ (by norm_num)]
    rfl
  have hpos := two_zpow_pos (-52)
  have hge := h.ge
  have hle := h.le
  obtain ⟨hfinite, hlow, hhigh⟩ := hnearest.isRounding.between isFinite_zero hp
    (by rw [value_zero]; linarith) (by rw [hbefore]; linarith)
  rw [value_zero] at hlow
  rw [hbefore] at hhigh
  refine ⟨⟨hfinite, hlow, by linarith⟩, ?_⟩
  refine hnearest.abs_sub_le hfinite (k := 0) (by decide) (by decide) ?_
  rw [zpow_zero, abs_le]
  constructor <;> linarith

end IsContamination

/-- The threshold of numbers is a quantile too. -/
theorem quantile_contaminationThreshold_float {scores : List Float} {c : Float}
    (h : Rankable scores) (hc : IsContamination c) :
    quantile scores (ofNat 1 - c) = some (contaminationThreshold scores c) ∧
      (contaminationThreshold scores c).isFinite := by
  obtain ⟨t, ht, hfinite, -⟩ := exists_quantile_float h hc.isShare_rest.1
  have hthreshold : contaminationThreshold scores c =
      (quantile scores (ofNat 1 - c)).getD half := rfl
  rw [hthreshold, ht, Option.getD_some]
  exact ⟨rfl, hfinite⟩

/-! ## Scores of a fitted forest -/

namespace Tree

theorem reach_mem_leaves (t : Tree) (row : List Float) : t.reach row ∈ t.leaves :=
  mem_leaves_iff.mpr ⟨t.route row, t.leafAt?_route row⟩

/-- No leaf holds more rows than the tree is grown on. -/
theorem GrownOn.size_reach_le {width n : Nat} {t : Tree} (h : t.GrownOn width n)
    (row : List Float) : (t.reach row).size ≤ n := by
  rw [← h.leaves]
  exact List.le_sum_of_mem (List.mem_map_of_mem (t.reach_mem_leaves row))

end Tree

theorem Forest.countP_flag (f : Forest) (scores : List Float) :
    (f.flag scores).countP id = scores.countP (f.threshold < ·) := by
  rw [flag, List.countP_map]
  rfl

namespace Detector

theorem fitForest_eq_ok [Elementary] {d : Detector} {chance : UInt64} {x : Matrix Float}
    {f : Forest} (h : d.fitForest chance x = .ok f) : 0 < x.height ∧ f = d.grown chance x := by
  unfold fitForest at h
  split at h
  case isTrue => cases h
  case isFalse hx =>
    refine ⟨Nat.pos_of_ne_zero hx, ?_⟩
    cases hc : d.contamination with
    | auto =>
      rw [hc] at h
      exact (Except.ok.inj h).symm
    | fraction c =>
      rw [hc] at h
      dsimp only at h
      split at h
      · cases h
      · exact (Except.ok.inj h).symm

/-- A fit that succeeds leaves the forest that is grown. -/
theorem fit_eq_ok [Elementary] {d d' : Detector} {chance : UInt64} {x : Matrix Float}
    (h : d.fit chance x = .ok d') : d' = { d with model := some (d.grown chance x) } := by
  obtain ⟨f, hfit, rfl⟩ := Except.map_eq_ok h
  rw [(fitForest_eq_ok hfit).2]

section Scores

variable [Elementary] {d : Detector} {x : Matrix Float}

theorem contamination_grown (d : Detector) (chance : UInt64) (x : Matrix Float) :
    (d.grown chance x).contamination = d.contamination := by
  rw [grown, Forest.calibrate_eq]
  rfl

/-- The threshold is computed from the scores of the forest itself. -/
theorem threshold_grown {c : Float} (hd : d.contamination = .fraction c) (chance : UInt64)
    (x : Matrix Float) : (d.grown chance x).threshold =
      contaminationThreshold (x.rows.map (d.grown chance x).scoreRow) c := by
  unfold grown Forest.calibrate
  have hc : (Forest.grow x d.trees (d.sampleSize.resolve x.height) d.contamination
      (d.seed.getD chance)).contamination = .fraction c := hd
  rw [hc]
  rfl

theorem exactThreshold_grown {c : Float} (hd : d.contamination = .fraction c) (chance : UInt64)
    (x : Matrix Float) : (d.grown chance x).exactThreshold x = contaminationThreshold
      ((x.rows.map (d.grown chance x).scoreRow).map value) (value c) := by
  rw [Forest.exactThreshold, contamination_grown, hd]

theorem score_grown (d : Detector) (chance : UInt64) {x y : Matrix Float}
    (hy : y.width = x.width) :
    (d.grown chance x).score y = .ok (y.rows.map (d.grown chance x).scoreRow) :=
  (d.fits_grown chance x).score_eq (hy.trans (d.width_grown chance x).symm)

theorem detect_of_model {f : Forest} {scores : List Float} (h : f.score x = .ok scores) :
    { d with model := some f }.detect x =
      .ok ⟨scores, f.flag scores, f.threshold, (f.flag scores).countP id⟩ := by
  have hscore : { d with model := some f }.score x = .ok scores := h
  unfold detect
  rw [hscore]
  rfl

variable [Elementary.Lawful]

theorem scoreRow_grown_within (htrees : 1 ≤ d.trees) (htrees' : d.trees ≤ 2 ^ 64)
    (hx : 1 ≤ x.height) (hx' : x.height ≤ 2 ^ 64) (chance : UInt64) (row : List Float) :
    Within 0 ((d.grown chance x).scoreRow row) := by
  have hsample := d.sampleSize.resolve_le hx
  have hlength := d.length_trees_grown chance x
  refine isolationScore_within ?_ ?_ ?_ ?_
  · rw [expectedPathLength_grown]
    exact (averagePathLength_spec (hsample.trans hx')).1
  · intro p hp
    obtain ⟨t, ht, rfl⟩ := List.mem_map.mp hp
    have hsize := (d.grownOn_of_mem_trees chance hx ht).size_reach_le row
    exact Leaf.zero_le_pathLength (hsize.trans (hsample.trans hx'))
  · rw [ne_eq, List.map_eq_nil_iff, ← List.length_eq_zero_iff]
    omega
  · rw [List.length_map, hlength]
    exact htrees'

theorem rankable_scores (htrees : 1 ≤ d.trees) (htrees' : d.trees ≤ 2 ^ 64) (hx : 1 ≤ x.height)
    (hx' : x.height ≤ 2 ^ 64) (chance : UInt64) :
    Rankable (x.rows.map (d.grown chance x).scoreRow) := by
  refine ⟨?_, fun s hs => ?_, ?_⟩
  · rw [ne_eq, List.map_eq_nil_iff]
    exact List.length_pos_iff.mp hx
  · obtain ⟨row, -, rfl⟩ := List.mem_map.mp hs
    exact (scoreRow_grown_within htrees htrees' hx hx' chance row).mono (by decide)
  · rw [List.length_map]
    exact (within_ofNat (k := 64) ((Nat.sub_le _ 1).trans hx') (by decide)).1

/-- The fitted forest's threshold is the quantile of its scores on the rows it was fitted to. With
nothing rounded, the rows that score above the threshold are no more than the share of all rows
but one, rounded up, and just as many when no two rows score alike. With numbers, one row more may
be flagged, or one less than the share rounded down. A word of 64 bits counts the trees and the
rows. -/
theorem fit_flags_share {c : Float} (hd : d.contamination = .fraction c)
    (hlow : nearest false 1 (twoTo 52) ≤ c) (hhigh : c ≤ nearest false 1 2) (htrees : 1 ≤ d.trees)
    (htrees' : d.trees ≤ 2 ^ 64) (chance : UInt64) (hx : 1 ≤ x.height) (hx' : x.height ≤ 2 ^ 64) :
    ∃ f detection, d.fit chance x = .ok { d with model := some f } ∧
      { d with model := some f }.detect x = .ok detection ∧
      { d with model := some f }.score x = .ok detection.scores ∧
      { d with model := some f }.threshold = .ok detection.threshold ∧
      (∀ s ∈ detection.scores, Within 0 s) ∧
      quantile detection.scores (ofNat 1 - c) = some detection.threshold ∧
      quantile (detection.scores.map value) (1 - value c) = some (f.exactThreshold x) ∧
      (detection.scores.map value).countP (f.exactThreshold x < ·) ≤
        ⌈value c * (x.height - 1 : ℕ)⌉₊ ∧
      ((detection.scores.map value).Nodup →
        (detection.scores.map value).countP (f.exactThreshold x < ·) =
          ⌈value c * (x.height - 1 : ℕ)⌉₊) ∧
      (x.height ≤ 2 ^ 51 → detection.flagged ≤ ⌈value c * (x.height - 1 : ℕ)⌉₊ + 1 ∧
        ((detection.scores.map value).Nodup →
          ⌊value c * (x.height - 1 : ℕ)⌋₊ ≤ detection.flagged + 1)) := by
  have hc := IsContamination.of_bounds hlow hhigh
  obtain ⟨hshare, hnear⟩ := hc.isShare_rest
  have hrankable := rankable_scores htrees htrees' hx hx' chance (x := x) (d := d)
  have hscore := d.score_grown chance (x := x) rfl
  have hdetect := detect_of_model (d := d) hscore
  have hfit : d.fit chance x = .ok { d with model := some (d.grown chance x) } := by
    rw [fit, fitForest_eq (by omega) (hd ▸ hc.isNumber)]
    rfl
  have hwithin : ∀ s ∈ x.rows.map (d.grown chance x).scoreRow, Within 0 s := by
    intro s hs
    obtain ⟨row, -, rfl⟩ := List.mem_map.mp hs
    exact scoreRow_grown_within htrees htrees' hx hx' chance row
  have hthreshold := d.threshold_grown hd chance x
  have hexact := d.exactThreshold_grown hd chance x
  have hlength : (x.rows.map (d.grown chance x).scoreRow).length = x.height := List.length_map _
  rw [Forest.countP_flag] at hdetect
  refine ⟨d.grown chance x, _, hfit, hdetect, hscore, rfl, hwithin, ?_⟩
  dsimp only
  generalize x.rows.map (d.grown chance x).scoreRow = scores at *
  have hne : scores.map value ≠ [] := by
    rw [ne_eq, List.map_eq_nil_iff]
    exact hrankable.ne_nil
  have hquantile : quantile scores (ofNat 1 - c) = some (d.grown chance x).threshold := by
    rw [hthreshold]
    exact (quantile_contaminationThreshold_float hrankable hc).1
  have hcount := countP_contaminationThreshold_le hne hc.nonneg hc.le_one
  have hcount' := fun hdistinct =>
    countP_contaminationThreshold hne hdistinct hc.nonneg hc.le_one
  rw [List.length_map, hlength] at hcount hcount'
  rw [hexact]
  refine ⟨hquantile, quantile_contaminationThreshold hne hc.nonneg hc.le_one, hcount, hcount',
    fun hfew => ?_⟩
  rw [← hlength] at hfew ⊢
  exact countP_quantile_float_near hrankable hc.nonneg hc.le_one hshare hnear hfew hquantile

end Scores

/-- The flags of the rows that a forest is grown on, as they can be evaluated. -/
theorem flag_grown [Elementary] {d : Detector} {c : Float} (hd : d.contamination = .fraction c)
    (chance : UInt64) (x : Matrix Float) :
    (d.grown chance x).flag (x.rows.map (d.grown chance x).scoreRow) =
      let scores := x.rows.map (d.grown chance x).scoreRow
      let sorted := (scores.filter Scalar.isNumber).insertionSort fun a b => place a ≤ place b
      scores.map fun s => decide ((quantileSorted sorted (ofNat 1 - c)).getD half < s) := by
  unfold Forest.flag
  rw [threshold_grown hd, contaminationThreshold, quantile, ascending_eq_insertionSort]
  rfl

theorem predict_grown [Elementary] {d : Detector} {c : Float} (hd : d.contamination = .fraction c)
    (chance : UInt64) (x : Matrix Float) : (d.grown chance x).predict x =
      let scores := x.rows.map (d.grown chance x).scoreRow
      let sorted := (scores.filter Scalar.isNumber).insertionSort fun a b => place a ≤ place b
      .ok (scores.map fun s => decide ((quantileSorted sorted (ofNat 1 - c)).getD half < s)) := by
  rw [Forest.predict, score_grown d chance rfl]
  exact congrArg Except.ok (flag_grown hd chance x)

/-- Three rows, of which a quarter is to be flagged. The first of them is. -/
theorem fit_flags_share_mixedColumn :
    let d := { standard.withTrees 3 with contamination := .fraction (nearest false 1 4) }
    ∃ f detection,
      @fit Elementary.series d 0 Tree.mixedColumn = .ok { d with model := some f } ∧
      @detect Elementary.series { d with model := some f } Tree.mixedColumn = .ok detection ∧
      quantile detection.scores (ofNat 1 - nearest false 1 4) = some detection.threshold ∧
      (detection.scores.map value).countP
        (@Forest.exactThreshold Elementary.series f Tree.mixedColumn < ·) ≤ 1 ∧
      detection.flagged ≤ 2 ∧ detection.flags = [true, false, false] := by
  intro d
  have hlow : nearest false 1 (twoTo 52) ≤ nearest false 1 4 := by decide +kernel
  have hhigh : nearest false 1 4 ≤ nearest false 1 2 := by decide +kernel
  obtain ⟨f, detection, hfit, hdetect, -, -, -, hquantile, -, hcount, -, hfew⟩ :=
    @fit_flags_share Elementary.series d Tree.mixedColumn Elementary.lawful_series _ rfl hlow
      hhigh (by decide) (by decide) 0 (by decide) (by decide)
  have hvalue : value (nearest false 1 4) = 1 / 4 := by
    have h := isRounding_nearest Nat.one_pos (show 0 < 4 by decide)
    rw [Nat.cast_one, Nat.cast_ofNat] at h
    exact (h.exact (m := 1) (e := -2) (by decide) (by decide) (by decide) (by norm_num)).2
  have hshare : ⌈value (nearest false 1 4) * (Tree.mixedColumn.height - 1 : ℕ)⌉₊ = 1 := by
    rw [hvalue, Nat.ceil_eq_iff one_ne_zero]
    norm_num [Tree.mixedColumn, Matrix.height]
  rw [hshare] at hcount hfew
  -- what was fitted is the forest that can be written down
  obtain rfl : f = @grown Elementary.series d 0 Tree.mixedColumn :=
    Option.some.inj (congrArg Detector.model (@fit_eq_ok Elementary.series _ _ _ _ hfit))
  have hflags : detection.flags = [true, false, false] := by
    have hscore := @score_grown Elementary.series d 0 Tree.mixedColumn Tree.mixedColumn rfl
    rw [@detect_of_model Elementary.series d _ _ _ hscore] at hdetect
    obtain rfl := Except.ok.inj hdetect
    dsimp only
    rw [@flag_grown Elementary.series d _ rfl]
    decide +kernel
  exact ⟨_, detection, hfit, hdetect, hquantile, hcount, (hfew (by decide)).1, hflags⟩

end Detector

end LoginForest
