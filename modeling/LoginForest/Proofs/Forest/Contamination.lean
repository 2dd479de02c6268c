/-
  A greater share of anomalies. The contamination has no part in the growth of a forest, so that
  of one seed the trees and the scores are the same for every share. A greater share takes the
  quantile of a lower rank, exactly and with rounded numbers, so its threshold is no higher, and
  whatever was flagged stays so (`Detector.fit_flags_mono`).
-/
import LoginForest.Proofs.Forest.Threshold

namespace LoginForest

open Number

/-! ## Thresholds of two shares -/

section Shares

theorem contaminationThreshold_anti {scores : List ℚ} {c c' : ℚ} (hne : scores ≠ []) (h0 : 0 ≤ c)
    (hle : c ≤ c') (h1 : c' ≤ 1) :
    contaminationThreshold scores c' ≤ contaminationThreshold scores c :=
  quantile_mono hne (sub_nonneg.mpr h1) (sub_le_sub_left hle 1) (sub_le_self 1 h0)
    (quantile_contaminationThreshold hne (h0.trans hle) h1)
    (quantile_contaminationThreshold hne h0 (hle.trans h1))

theorem contaminationThreshold_float_anti {scores : List Float} {c c' : Float}
    (h : Rankable scores) (hc : IsContamination c) (hc' : IsContamination c')
    (hle : value c ≤ value c') :
    contaminationThreshold scores c' ≤ contaminationThreshold scores c := by
  have hshare := hc.isShare_rest.1
  have hshare' := hc'.isShare_rest.1
  obtain ⟨hquantile, hfinite⟩ := quantile_contaminationThreshold_float h hc
  obtain ⟨hquantile', hfinite'⟩ := quantile_contaminationThreshold_float h hc'
  rw [le_iff_value hfinite' hfinite]
  exact value_quantile_le h hshare' hshare (value_sub_le isFinite_one hc.isFinite hc'.isFinite
    hshare.isFinite hshare'.isFinite hle) hquantile' hquantile

/-- A share up to one half is held to, unless it is too small. -/
theorem Contamination.held_fraction {c : Float} (h0 : ofNat 0 < c) (h1 : c ≤ nearest false 1 2) :
    ∃ e, (fraction c).held = .fraction e ∧ IsContamination e ∧
      value e = max (2 ^ (-52 : Int)) (value c) := by
  obtain ⟨hleast, hleast'⟩ := IsContamination.value_least
  obtain ⟨hgreatest, hgreatest'⟩ := IsContamination.value_greatest
  have hfinite := isFinite_of_le_of_le isFinite_zero hgreatest (le_of_lt h0) h1
  have h1' := (le_iff_value hfinite hgreatest).mp h1
  rw [hgreatest'] at h1'
  have hnot : ¬ nearest false 1 2 < c := by
    rw [lt_iff_value hgreatest hfinite, hgreatest']
    exact h1'.not_gt
  unfold held
  by_cases hlow : c < nearest false 1 (twoTo 52)
  · have hlow' := (lt_iff_value hfinite hleast).mp hlow
    rw [hleast'] at hlow'
    refine ⟨_, congrArg fraction (if_pos hlow), ⟨hleast, hleast'.ge, ?_⟩, ?_⟩
    · rw [hleast']
      norm_num
    · rw [hleast', max_eq_left hlow'.le]
  · have hlow' := (lt_iff_value hfinite hleast).not.mp hlow
    rw [hleast', not_lt] at hlow'
    refine ⟨c, ?_, ⟨hfinite, hlow', h1'⟩, (max_eq_right hlow').symm⟩
    dsimp only
    rw [if_neg hlow, if_neg hnot]

/-- Shares are held in their order. -/
theorem Contamination.held_mono {c c' : Float} (h0 : ofNat 0 < c) (h1 : c ≤ nearest false 1 2)
    (h0' : ofNat 0 < c') (h1' : c' ≤ nearest false 1 2) (hle : c ≤ c') :
    ∃ e e', (fraction c).held = .fraction e ∧ (fraction c').held = .fraction e' ∧
      IsContamination e ∧ IsContamination e' ∧ value e ≤ value e' := by
  obtain ⟨e, hheld, he, hvalue⟩ := held_fraction h0 h1
  obtain ⟨e', hheld', he', hvalue'⟩ := held_fraction h0' h1'
  have hgreatest := IsContamination.value_greatest.1
  have hfinite := isFinite_of_le_of_le isFinite_zero hgreatest (le_of_lt h0) h1
  have hfinite' := isFinite_of_le_of_le isFinite_zero hgreatest (le_of_lt h0') h1'
  refine ⟨e, e', hheld, hheld', he, he', ?_⟩
  rw [hvalue, hvalue']
  exact max_le_max le_rfl ((le_iff_value hfinite hfinite').mp hle)

end Shares

/-! ## Forests of two shares -/

namespace Forest

section Scores

variable [Elementary] {f f' : Forest}

/-- Scores are known from the trees, their expected path and the width. -/
theorem score_congr (htrees : f.trees = f'.trees) (hwidth : f.width = f'.width)
    (hpath : f.expectedPathLength = f'.expectedPathLength) :
    f.scoreRow = f'.scoreRow ∧ ∀ y, f.score y = f'.score y := by
  have hrow : f.scoreRow = f'.scoreRow := by
    funext row
    rw [scoreRow, scoreRow, htrees, hpath]
  refine ⟨hrow, fun y => ?_⟩
  rw [score, score, admits, admits, htrees, hwidth, hrow]

theorem eq_map_of_score {y : Matrix Float} {scores : List Float} (h : f.score y = .ok scores) :
    scores = y.rows.map f.scoreRow := by
  unfold score at h
  split at h
  · split at h
    · exact (Except.ok.inj h).symm
    · cases h
  · cases h

end Scores

/-- A threshold that is no higher flags what the other one flags. -/
theorem flag_of_threshold_le {f f' : Forest} (hfinite : f.threshold.isFinite)
    (hfinite' : f'.threshold.isFinite) (hle : f'.threshold ≤ f.threshold) {scores : List Float}
    (hs : ∀ s ∈ scores, s.isFinite) {i : ℕ} (h : (f.flag scores)[i]? = some true) :
    (f'.flag scores)[i]? = some true := by
  rw [flag, List.getElem?_map, Option.map_eq_some_iff] at h
  obtain ⟨s, hscore, habove⟩ := h
  have hsfinite := hs s (List.mem_of_getElem? hscore)
  have habove' := (lt_iff_value hfinite hsfinite).mp (of_decide_eq_true habove)
  have hle' := (le_iff_value hfinite' hfinite).mp hle
  rw [flag, List.getElem?_map, hscore, Option.map_some, Option.some_inj, decide_eq_true_eq,
    lt_iff_value hfinite' hsfinite]
  exact hle'.trans_lt habove'

theorem predict_of_threshold_le [Elementary] {f f' : Forest} (hfinite : f.threshold.isFinite)
    (hfinite' : f'.threshold.isFinite) (hle : f'.threshold ≤ f.threshold)
    (hscore : ∀ y, f'.score y = f.score y) (hrow : ∀ row, (f.scoreRow row).isFinite)
    {y : Matrix Float} {flags : List Bool} (h : f.predict y = .ok flags) :
    ∃ flags', f'.predict y = .ok flags' ∧
      ∀ i : ℕ, flags[i]? = some true → flags'[i]? = some true := by
  unfold predict at h ⊢
  cases hscores : f.score y with
  | error error =>
    rw [hscores] at h
    cases h
  | ok scores =>
    rw [hscores] at h
    obtain rfl := Except.ok.inj h
    rw [hscore, hscores]
    refine ⟨f'.flag scores, rfl, fun i => flag_of_threshold_le hfinite hfinite' hle ?_⟩
    intro s hs
    rw [eq_map_of_score hscores] at hs
    obtain ⟨row, -, rfl⟩ := List.mem_map.mp hs
    exact hrow row

end Forest

namespace Detector

section Shares

variable [Elementary] {d : Detector} {seed : UInt64}

/-- The contamination has no part in the growth of the trees. -/
theorem trees_withContamination (hseed : d.seed = some seed) (c c' : Contamination)
    (chance chance' : UInt64) (x : Matrix Float) :
    ((d.withContamination c').grown chance' x).trees =
      ((d.withContamination c).grown chance x).trees := by
  have hword : ∀ (c : Contamination) (chance : UInt64),
      (d.withContamination c).seed.getD chance = seed := by
    intro c chance
    rw [withContamination, hseed, Option.getD_some]
  rw [trees_grown_eq, trees_grown_eq, hword, hword]
  rfl

theorem score_withContamination (hseed : d.seed = some seed) (c c' : Contamination)
    (chance chance' : UInt64) (x : Matrix Float) :
    ((d.withContamination c').grown chance' x).scoreRow =
        ((d.withContamination c).grown chance x).scoreRow ∧
      ∀ y, ((d.withContamination c').grown chance' x).score y =
        ((d.withContamination c).grown chance x).score y := by
  refine Forest.score_congr (trees_withContamination hseed c c' chance chance' x) ?_ ?_
  · rw [width_grown, width_grown]
  · rw [expectedPathLength_grown, expectedPathLength_grown]
    rfl

/-- Two detectors whose forests score alike have thresholds in the opposite order of their
shares. -/
theorem exactThreshold_grown_anti {d' : Detector} {chance chance' : UInt64} {x : Matrix Float}
    (hx : 1 ≤ x.height) (hrow : (d'.grown chance' x).scoreRow = (d.grown chance x).scoreRow)
    {e e' : Float} (hd : d.contamination = .fraction e) (hd' : d'.contamination = .fraction e')
    (he : IsContamination e) (he' : IsContamination e') (hle : value e ≤ value e') :
    (d'.grown chance' x).exactThreshold x ≤ (d.grown chance x).exactThreshold x := by
  rw [exactThreshold_grown hd, exactThreshold_grown hd', hrow]
  refine contaminationThreshold_anti ?_ he.nonneg hle he'.le_one
  rw [ne_eq, List.map_eq_nil_iff, List.map_eq_nil_iff]
  exact List.length_pos_iff.mp hx

variable [Elementary.Lawful]

theorem threshold_grown_anti {d' : Detector} (htrees : 1 ≤ d.trees) (htrees' : d.trees ≤ 2 ^ 64)
    {chance chance' : UInt64} {x : Matrix Float} (hx : 1 ≤ x.height) (hx' : x.height ≤ 2 ^ 64)
    (hrow : (d'.grown chance' x).scoreRow = (d.grown chance x).scoreRow) {e e' : Float}
    (hd : d.contamination = .fraction e) (hd' : d'.contamination = .fraction e')
    (he : IsContamination e) (he' : IsContamination e') (hle : value e ≤ value e') :
    (d.grown chance x).threshold.isFinite ∧ (d'.grown chance' x).threshold.isFinite ∧
      (d'.grown chance' x).threshold ≤ (d.grown chance x).threshold := by
  have hrankable := rankable_scores htrees htrees' hx hx' chance
  rw [threshold_grown hd, threshold_grown hd', hrow]
  exact ⟨(quantile_contaminationThreshold_float hrankable he).2,
    (quantile_contaminationThreshold_float hrankable he').2,
    contaminationThreshold_float_anti hrankable he he' hle⟩

/-- Of one seed a greater share of anomalies gives the same trees and scores, no higher threshold,
be it exact or rounded, and flags every row that the lesser share flags. A word of 64 bits counts
the trees and the rows. -/
theorem fit_flags_mono (hseed : d.seed = some seed) {c c' : Float} (h0 : ofNat 0 < c)
    (h1 : c ≤ nearest false 1 2) (h0' : ofNat 0 < c') (h1' : c' ≤ nearest false 1 2) (hle : c ≤ c')
    (htrees : 1 ≤ d.trees) (htrees' : d.trees ≤ 2 ^ 64) (chance chance' : UInt64)
    {x : Matrix Float} (hx : 1 ≤ x.height) (hx' : x.height ≤ 2 ^ 64) :
    ∃ f f', (d.withContamination (.fraction c)).fitForest chance x = .ok f ∧
      (d.withContamination (.fraction c')).fitForest chance' x = .ok f' ∧
      f'.trees = f.trees ∧ (∀ y, f'.score y = f.score y) ∧
      f'.exactThreshold x ≤ f.exactThreshold x ∧
      (∀ row, f.exactThreshold x < value (f.scoreRow row) →
        f'.exactThreshold x < value (f'.scoreRow row)) ∧
      f'.threshold ≤ f.threshold ∧
      ∀ y flags, f.predict y = .ok flags → ∃ flags', f'.predict y = .ok flags' ∧
        ∀ i : ℕ, flags[i]? = some true → flags'[i]? = some true := by
  obtain ⟨e, e', hheld, hheld', he, he', hee⟩ := Contamination.held_mono h0 h1 h0' h1' hle
  have hd : (d.withContamination (.fraction c)).contamination = .fraction e := hheld
  have hd' : (d.withContamination (.fraction c')).contamination = .fraction e' := hheld'
  have hsame := trees_withContamination hseed (.fraction c) (.fraction c') chance chance' x
  obtain ⟨hrow, hscore⟩ :=
    score_withContamination hseed (.fraction c) (.fraction c') chance chance' x
  have hexact := exactThreshold_grown_anti hx hrow hd hd' he he' hee
  obtain ⟨hfinite, hfinite', hthreshold⟩ := threshold_grown_anti
    (d := d.withContamination (.fraction c)) htrees htrees' hx hx' hrow hd hd' he he' hee
  have hwithin := scoreRow_grown_within (d := d.withContamination (.fraction c)) htrees htrees' hx
    hx' chance
  refine ⟨_, _, fitForest_eq (by omega) (hd ▸ he.isNumber),
    fitForest_eq (by omega) (hd' ▸ he'.isNumber), hsame, hscore, hexact,
    fun row habove => ?_, hthreshold, fun y flags => ?_⟩
  · rw [hrow]
    exact hexact.trans_lt habove
  · exact Forest.predict_of_threshold_le hfinite hfinite' hthreshold hscore fun row =>
      (hwithin row).1

end Shares

/-- A share that is too small to be held to, and a quarter: it is for the greater one that a row
is flagged. -/
theorem fit_flags_mono_mixedColumn :
    let d := (standard.withTrees 3).withSeed 7
    ∃ f f',
      @fitForest Elementary.series (d.withContamination (.fraction (nearest false 1 (twoTo 60)))) 0
        Tree.mixedColumn = .ok f ∧
      @fitForest Elementary.series (d.withContamination (.fraction (nearest false 1 4))) 1
        Tree.mixedColumn = .ok f' ∧
      f'.trees = f.trees ∧ f'.threshold ≤ f.threshold ∧
      @Forest.exactThreshold Elementary.series f' Tree.mixedColumn ≤
        @Forest.exactThreshold Elementary.series f Tree.mixedColumn ∧
      @Forest.predict Elementary.series f Tree.mixedColumn = .ok [false, false, false] ∧
      @Forest.predict Elementary.series f' Tree.mixedColumn = .ok [true, false, false] := by
  intro d
  have h0 : ofNat 0 < nearest false 1 (twoTo 60) := by decide +kernel
  have h1 : nearest false 1 (twoTo 60) ≤ nearest false 1 2 := by decide +kernel
  have h0' : ofNat 0 < nearest false 1 4 := by decide +kernel
  have h1' : nearest false 1 4 ≤ nearest false 1 2 := by decide +kernel
  have hle : nearest false 1 (twoTo 60) ≤ nearest false 1 4 := by decide +kernel
  obtain ⟨f, f', hf, hf', htrees, -, hexact, -, hthreshold, -⟩ :=
    @fit_flags_mono Elementary.series d 7 Elementary.lawful_series rfl _ _ h0 h1 h0' h1' hle
      (by decide) (by decide) 0 1 Tree.mixedColumn (by decide) (by decide)
  refine ⟨f, f', hf, hf', htrees, hthreshold, hexact, ?_, ?_⟩
  · rw [(@fitForest_eq_ok Elementary.series _ _ _ _ hf).2, @predict_grown Elementary.series _ _ rfl]
    exact congrArg Except.ok (by decide +kernel)
  · rw [(@fitForest_eq_ok Elementary.series _ _ _ _ hf').2, @predict_grown Elementary.series _ _ rfl]
    exact congrArg Except.ok (by decide +kernel)

end Detector

end LoginForest
