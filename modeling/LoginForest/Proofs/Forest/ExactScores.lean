/-
  Scores with nothing rounded. The formulas of paths and scores are read over the real numbers,
  with the logarithm and the powers of two as they are there. The average path length then neither
  falls below zero nor falls with the number of points (`averagePathLength_mono`), and a tree of
  `s` rows has at most seven times as many levels as the average path among `s` points is long
  (`clog_le_averagePathLength`), with two points the tightest case. So no score is below the
  eighth negative power of two (`Detector.fitForest_exactScores`).
-/
import Mathlib
import LoginForest.Proofs.Forest.Threshold

namespace LoginForest

/-- Real numbers, with nothing rounded. -/
noncomputable instance : Scalar ℝ where
  count n := n
  less a b := a < b
  atMost a b := a ≤ b
  same a b := a = b
  isNumber _ := true
  isFinite _ := true
  precedes a b := a ≤ b
  floor x := ⌊x⌋₊
  ceiling x := ⌈x⌉₊

noncomputable instance : Analytic ℝ where
  log := Real.log
  twoToThe t := 2 ^ t
  decimal digits places := digits / 10 ^ places

theorem count_zero_real : (Scalar.count 0 : ℝ) = 0 := Nat.cast_zero

theorem count_one_real : (Scalar.count 1 : ℝ) = 1 := Nat.cast_one

theorem less_real {a b : ℝ} : Scalar.less a b = true ↔ a < b := decide_eq_true_iff

/-! ## Average path lengths -/

/-- Euler's constant in the formula, as the decimal that is written there. -/
noncomputable def exactGamma : ℝ := 5772156649015329 / 10 ^ 16

theorem averagePathLength_of_le {n : ℕ} (h : n ≤ 1) : (averagePathLength n : ℝ) = 0 := by
  rw [averagePathLength, if_pos h, count_zero_real]

theorem averagePathLength_real {n : ℕ} (h : 2 ≤ n) : (averagePathLength n : ℝ) =
    2 * (Real.log (n - 1) + exactGamma) - 2 * (n - 1) / n := by
  rw [averagePathLength, if_neg (by omega)]
  show ((2 : ℕ) : ℝ) * (Real.log ((n : ℝ) - (1 : ℕ)) + ((5772156649015329 : ℕ) : ℝ) / 10 ^ 16) -
    (2 : ℕ) * ((n : ℝ) - (1 : ℕ)) / n = _
  rw [exactGamma]
  norm_num

theorem averagePathLength_two : (averagePathLength 2 : ℝ) = 2 * exactGamma - 1 := by
  rw [averagePathLength_real le_rfl]
  norm_num

/-- One point more makes the logarithm grow by more than the other term does. -/
theorem averagePathLength_le_succ {n : ℕ} (h : 2 ≤ n) :
    (averagePathLength n : ℝ) ≤ averagePathLength (n + 1) := by
  have hn : (2 : ℝ) ≤ n := by exact_mod_cast h
  have hlog : 1 / (n : ℝ) ≤ Real.log n - Real.log (n - 1) := by
    have hstep := Real.one_sub_inv_le_log_of_pos (x := n / (n - 1)) (by
      apply div_pos <;> linarith)
    rw [Real.log_div (by linarith) (by linarith), inv_div] at hstep
    refine le_trans (le_of_eq ?_) hstep
    field_simp
    ring
  have hterm : 2 * ((n : ℝ) + 1 - 1) / (n + 1) - 2 * (n - 1) / n ≤ 2 * (1 / n) := by
    rw [div_sub_div _ _ (by linarith) (by linarith), mul_one_div, div_le_div_iff₀ (by nlinarith)
      (by linarith)]
    nlinarith
  rw [averagePathLength_real h, averagePathLength_real (by omega)]
  push_cast
  rw [add_sub_cancel_right] at hterm ⊢
  linarith

/-- Average paths do not become shorter with more points. -/
theorem averagePathLength_mono : Monotone (averagePathLength : ℕ → ℝ) := by
  refine monotone_nat_of_le_succ fun n => ?_
  rcases n with _ | _ | n
  · rw [averagePathLength_of_le (Nat.zero_le 1), averagePathLength_of_le le_rfl]
  · rw [averagePathLength_of_le le_rfl, averagePathLength_two, exactGamma]
    norm_num
  · exact averagePathLength_le_succ (by omega)

theorem averagePathLength_nonneg (n : ℕ) : 0 ≤ (averagePathLength n : ℝ) := by
  rw [← averagePathLength_of_le (Nat.zero_le 1)]
  exact averagePathLength_mono (Nat.zero_le n)

/-- The levels that `n` points are given room for, by their average path. Of two points the path
is about a sixth and the room is one level. -/
theorem clog_le_averagePathLength {n : ℕ} (h : 2 ≤ n) :
    (Nat.clog 2 n : ℝ) ≤ 7 * averagePathLength n := by
  obtain rfl | h := h.eq_or_lt
  · rw [averagePathLength_two, exactGamma, show Nat.clog 2 2 = 1 by decide]
    norm_num
  have hlevels : 2 ≤ Nat.clog 2 n := by
    rw [← Nat.lt_iff_add_one_le, Nat.lt_clog_iff_pow_lt (by decide)]
    exact h
  have hpow : 2 ^ (Nat.clog 2 n - 1) ≤ n - 1 :=
    Nat.le_sub_one_of_lt (Nat.pow_pred_clog_lt_self (by decide) (by omega))
  obtain ⟨k, hk⟩ : ∃ k, Nat.clog 2 n = k + 1 :=
    ⟨_, (Nat.sub_add_cancel (Nat.one_le_of_lt hlevels)).symm⟩
  rw [hk, Nat.add_sub_cancel] at hpow
  have hn : (3 : ℝ) ≤ n := by exact_mod_cast h
  have hk1 : (1 : ℝ) ≤ k := by exact_mod_cast Nat.le_of_succ_le_succ (hk ▸ hlevels)
  have hlog : k * Real.log 2 ≤ Real.log (n - 1) := by
    have hreal : (2 : ℝ) ^ k ≤ n - 1 := by
      rw [le_sub_iff_add_le]
      have hpow' : 2 ^ k + 1 ≤ n := by omega
      exact_mod_cast hpow'
    have hmono := Real.log_le_log (by positivity) hreal
    rwa [Real.log_pow] at hmono
  have hterm : 2 * ((n : ℝ) - 1) / n ≤ 2 := by
    rw [div_le_iff₀ (by linarith)]
    linarith
  have hroom : k * (0.6931471803 : ℝ) ≤ k * Real.log 2 :=
    mul_le_mul_of_nonneg_left Real.log_two_gt_d9.le (by positivity)
  rw [hk, averagePathLength_real (by omega), exactGamma]
  push_cast
  linarith

/-! ## Scores by paths -/

theorem pathUnit_pos (e : ℝ) : 0 < pathUnit e := by
  unfold pathUnit
  split
  case isTrue h => rwa [count_zero_real, less_real] at h
  case isFalse => rw [count_one_real]; exact one_pos

theorem le_pathUnit (e : ℝ) : e ≤ pathUnit e := by
  unfold pathUnit
  split
  case isTrue => exact le_rfl
  case isFalse h =>
    rw [count_zero_real, less_real, not_lt] at h
    rw [count_one_real]
    exact h.trans zero_le_one

theorem isolationScore_real (e : ℝ) (paths : List ℝ) :
    isolationScore e paths = 2 ^ (-(paths.sum / paths.length) / pathUnit e) := by
  rw [isolationScore, count_zero_real, List.sum_eq_foldl]
  rfl

/-- A longer path through one tree gives a lower score. -/
theorem isolationScore_strictAnti (e : ℝ) {paths : List ℝ} {i : ℕ} (h : i < paths.length) :
    StrictAnti fun p => isolationScore e (paths.set i p) := by
  intro p q hpq
  have hlength : (0 : ℝ) < paths.length := Nat.cast_pos.mpr (Nat.zero_lt_of_lt h)
  have hsum : (paths.set i p).sum < (paths.set i q).sum := by
    rw [List.sum_set _ _ p, List.sum_set _ _ q, if_pos h, if_pos h]
    linarith
  dsimp only
  rw [isolationScore_real, isolationScore_real, List.length_set, List.length_set]
  refine Real.rpow_lt_rpow_of_exponent_lt one_lt_two ?_
  have hmean := div_lt_div_of_pos_right hsum hlength
  exact div_lt_div_of_pos_right (neg_lt_neg hmean) (pathUnit_pos e)

/-- The levels that points are given room for are at most seven units. -/
theorem clog_le_pathUnit (n : ℕ) : (Nat.clog 2 n : ℝ) ≤ 7 * pathUnit (averagePathLength n) := by
  rcases le_or_gt 2 n with h | h
  · have hlevels := clog_le_averagePathLength h
    have hunit := le_pathUnit (averagePathLength n)
    linarith
  · rw [Nat.clog_of_right_le_one (by omega), Nat.cast_zero]
    have hunit := pathUnit_pos (averagePathLength n)
    positivity

/-- Paths of no more than `k` units each score no less than the negative power. -/
theorem isolationScore_mem {e k : ℝ} {paths : List ℝ} (hk : 0 ≤ k)
    (hpaths : ∀ p ∈ paths, 0 ≤ p ∧ p ≤ k * pathUnit e) :
    2 ^ (-k) ≤ isolationScore e paths ∧ isolationScore e paths ≤ 1 := by
  have hunit := pathUnit_pos e
  have hsum : 0 ≤ paths.sum := List.sum_nonneg fun p hp => (hpaths p hp).1
  have hmean : paths.sum / paths.length ≤ k * pathUnit e := by
    refine div_le_of_le_mul₀ (Nat.cast_nonneg _) (by positivity) ?_
    have hbound := List.sum_le_card_nsmul paths _ fun p hp => (hpaths p hp).2
    rwa [nsmul_eq_mul, mul_comm] at hbound
  rw [isolationScore_real]
  constructor
  · refine Real.rpow_le_rpow_of_exponent_le one_le_two ?_
    rw [le_div_iff₀ hunit]
    linarith
  · refine Real.rpow_le_one_of_one_le_of_nonpos one_le_two ?_
    exact div_nonpos_of_nonpos_of_nonneg (neg_nonpos.mpr (by positivity)) hunit.le

/-! ## Scores of fitted forests -/

namespace Tree

theorem depth_reach_le_height (t : Tree) (row : List Float) : (t.reach row).depth ≤ t.height := by
  induction t with
  | leaf l => exact le_rfl
  | split feature threshold left right ihl ihr =>
    rw [reach, height]
    split
    · exact le_max_of_le_left ihl
    · exact le_max_of_le_right ihr

/-- No path is longer than the room for levels and the average path among all the rows. -/
theorem GrownOn.pathLength_real {width n : ℕ} {t : Tree} (h : t.GrownOn width n)
    (row : List Float) : 0 ≤ (t.pathLength row : ℝ) ∧
      (t.pathLength row : ℝ) ≤ Nat.clog 2 n + averagePathLength n := by
  have hpath : (t.pathLength row : ℝ) =
      ((t.reach row).depth : ℝ) + averagePathLength (t.reach row).size := rfl
  have hdepth : ((t.reach row).depth : ℝ) ≤ Nat.clog 2 n :=
    Nat.cast_le.mpr ((t.depth_reach_le_height row).trans h.height)
  rw [hpath]
  exact ⟨add_nonneg (Nat.cast_nonneg _) (averagePathLength_nonneg _),
    add_le_add hdepth (averagePathLength_mono (h.size_reach_le row))⟩

end Tree

/-- The score of a row with nothing rounded, neither the expected path of the sample size nor the
paths. -/
noncomputable def Forest.exactScoreRow (f : Forest) (row : List Float) : ℝ :=
  isolationScore (averagePathLength f.sampleSize) (f.trees.map (·.pathLength row))

namespace Detector

/-- Average paths are not below zero and do not become shorter with more points. So in every tree
of a fitted forest the path of any row is between zero and the limit of levels with the average
path of the sample, and all scores are between the eighth negative power of two and one: exactly
one when trees have a single row each. The longer any one path is, the lower is the score. -/
theorem fitForest_exactScores [Elementary] {d : Detector} {chance : UInt64} {x : Matrix Float}
    {f : Forest} (h : d.fitForest chance x = .ok f) :
    (∀ n, 0 ≤ (averagePathLength n : ℝ)) ∧ Monotone (averagePathLength : ℕ → ℝ) ∧
      f.expectedPathLength = averagePathLength f.sampleSize ∧
      (∀ t ∈ f.trees, ∀ row, 0 ≤ (t.pathLength row : ℝ) ∧ (t.pathLength row : ℝ) ≤
        ⌈Real.logb 2 f.sampleSize⌉₊ + averagePathLength f.sampleSize) ∧
      (∀ row, 2 ^ (-8 : ℝ) ≤ f.exactScoreRow row ∧ f.exactScoreRow row ≤ 1) ∧
      (f.sampleSize = 1 → ∀ row, f.exactScoreRow row = 1) ∧
      ∀ paths : List ℝ, ∀ i < paths.length,
        StrictAnti fun p => isolationScore (averagePathLength f.sampleSize) (paths.set i p) := by
  obtain ⟨hx, rfl⟩ := fitForest_eq_ok h
  have hone := d.sampleSize.one_le_resolve x.height
  have hpaths : ∀ t ∈ (d.grown chance x).trees, ∀ row, 0 ≤ (t.pathLength row : ℝ) ∧
      (t.pathLength row : ℝ) ≤ Nat.clog 2 (d.sampleSize.resolve x.height) +
        averagePathLength (d.sampleSize.resolve x.height) :=
    fun t ht row => (d.grownOn_of_mem_trees chance hx ht).pathLength_real row
  unfold Forest.exactScoreRow
  rw [expectedPathLength_grown, sampleSize_grown, ← Nat.cast_ofNat (R := ℝ),
    Real.natCeil_logb_natCast]
  generalize d.sampleSize.resolve x.height = s at *
  refine ⟨averagePathLength_nonneg, averagePathLength_mono, rfl, hpaths, fun row => ?_,
    fun hs row => ?_, fun paths i hi => isolationScore_strictAnti _ hi⟩
  · refine isolationScore_mem (by norm_num) fun p hp => ?_
    obtain ⟨t, ht, rfl⟩ := List.mem_map.mp hp
    obtain ⟨hnonneg, hle⟩ := hpaths t ht row
    have hunit := clog_le_pathUnit s
    have hexpected := le_pathUnit (averagePathLength s)
    exact ⟨hnonneg, by linarith⟩
  · subst hs
    have hnone : ∀ p ∈ (d.grown chance x).trees.map fun t => (t.pathLength row : ℝ),
        0 ≤ p ∧ p ≤ 0 * pathUnit (averagePathLength 1) := by
      intro p hp
      obtain ⟨t, ht, rfl⟩ := List.mem_map.mp hp
      have hpath := hpaths t ht row
      rw [averagePathLength_of_le le_rfl, Nat.clog_one_right, Nat.cast_zero, add_zero] at hpath
      rwa [zero_mul]
    have hscore := isolationScore_mem le_rfl hnone
    rw [neg_zero, Real.rpow_zero] at hscore
    exact hscore.2.antisymm hscore.1

/-- A forest on three rows, with samples of two rows at most. -/
theorem fitForest_exactScores_mixedColumn :
    let d := (standard.withTrees 3).withSampleSize (.count 2)
    ∃ f, @fitForest Elementary.series d 0 Tree.mixedColumn = .ok f ∧ f.sampleSize = 2 ∧
      f.trees.length = 3 ∧
      (∀ t ∈ f.trees, ∀ row, (t.pathLength row : ℝ) ≤ 1 + averagePathLength 2) ∧
      ∀ row, 2 ^ (-8 : ℝ) ≤ f.exactScoreRow row ∧ f.exactScoreRow row ≤ 1 := by
  intro d
  have hc : d.contamination.IsNumber := by
    show (Number.ofDecimal false 2 (-2)).isNaN = false
    decide +kernel
  have hfit := @fitForest_eq Elementary.series d 0 Tree.mixedColumn (by decide) hc
  have hsize := @sampleSize_grown Elementary.series d 0 Tree.mixedColumn
  obtain ⟨-, -, -, hpaths, hscores, -, -⟩ := @fitForest_exactScores Elementary.series _ _ _ _ hfit
  refine ⟨_, hfit, hsize, @length_trees_grown Elementary.series d 0 Tree.mixedColumn,
    fun t ht row => ?_, hscores⟩
  have hle := (hpaths t ht row).2
  rw [hsize, show d.sampleSize.resolve Tree.mixedColumn.height = 2 by decide,
    ← Nat.cast_ofNat (R := ℝ), Real.natCeil_logb_natCast, show Nat.clog 2 2 = 1 by decide,
    Nat.cast_one] at hle
  exact hle

end Detector

end LoginForest
