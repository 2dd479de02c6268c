/-
  Quantiles of finite numbers. A quantile is one of the values or interpolates between two of
  them (`quantileSorted_cases`). The median is finite whatever the values are, for it weighs both
  neighbours by one half exactly; any other quantile is finite for values that are not large.
-/
import LoginForest.Proofs.Number.Sign
import LoginForest.Stats.Quantile

namespace LoginForest

open Number

/-! ## Positions -/

theorem less_iff_value {x y : Float} (hx : x.isFinite) (hy : y.isFinite) :
    Scalar.less x y ↔ value x < value y :=
  decide_eq_true_iff.trans (lt_iff_value hx hy)

theorem clampUnit_eq {q : Float} (hq : q.isFinite) : clampUnit q =
    if value q < 0 then ofNat 0 else if 1 < value q then ofNat 1 else q := by
  have hlow : Scalar.less q (Scalar.count 0) ↔ value q < 0 := by
    rw [← value_zero]
    exact less_iff_value hq isFinite_zero
  have hhigh : ∀ x : Float, x.isFinite → (Scalar.less (Scalar.count 1) x ↔ 1 < value x) := by
    intro x hx
    rw [← value_one]
    exact less_iff_value isFinite_one hx
  unfold clampUnit
  dsimp only
  by_cases h : value q < 0
  · have hzero : ¬ Scalar.less (Scalar.count 1) (ofNat 0) := by
      rw [hhigh _ isFinite_zero, value_zero]
      norm_num
    rw [if_pos h, if_pos (hlow.mpr h)]
    exact if_neg hzero
  · rw [if_neg h]
    simp only [hlow.not.mpr h, Bool.false_eq_true, if_false, hhigh q hq]
    rfl

theorem clampUnit_spec {q : Float} (hq : q.isFinite) : (clampUnit q).isFinite ∧
    0 ≤ value (clampUnit q) ∧ value (clampUnit q) ≤ 1 := by
  rw [clampUnit_eq hq]
  split
  · exact ⟨isFinite_zero, value_zero.ge, by rw [value_zero]; norm_num⟩
  · split
    · exact ⟨isFinite_one, by rw [value_one]; norm_num, value_one.le⟩
    · exact ⟨hq, not_lt.mp ‹_›, not_lt.mp ‹_›⟩

theorem clampUnit_half : clampUnit (half : Float) = half := by
  rw [clampUnit_eq isFinite_half.1, isFinite_half.2, if_neg (by norm_num), if_neg (by norm_num)]

/-- Where the `q`-quantile of `n + 1` values lies among them. -/
def position (q : Float) (n : Nat) : Float := clampUnit q * ofNat n

theorem position_spec {q : Float} (hq : q.isFinite) {n : Nat} (hn : n ≤ 2 ^ 60) :
    Within 60 (position q n) ∧ 0 ≤ value (position q n) := by
  obtain ⟨hclamp, h0, h1⟩ := clampUnit_spec hq
  have hunit : Within 0 (clampUnit q) := by
    refine ⟨hclamp, ?_⟩
    rw [zpow_zero, abs_of_nonneg h0]
    exact h1
  have hcount : Within 60 (ofNat n) := within_ofNat hn (by decide)
  have hproduct : Within (0 + 60) (position q n) :=
    within_mul hunit hcount (by decide) (by decide)
  refine ⟨hproduct, ?_⟩
  rw [← value_zero]
  refine (isRounding_mul hclamp hcount.1).le_value hproduct.1 isFinite_zero ?_
  have := (zero_le_iff.mp (zero_le_ofNat n)).resolve_left fun hp => by
    obtain ⟨_, _, _, hfinite⟩ := isFinite_iff.mp hcount.1
    rw [hfinite] at hp
    cases hp
  rw [value_zero]
  exact mul_nonneg h0 this.2

/-- How far a position is beyond the place before it. -/
def fraction (x : Float) : Float := x - ofNat (wholePart x)

theorem within_fraction {x : Float} (hx : Within 60 x) (h0 : 0 ≤ value x) :
    Within 61 (fraction x) := by
  have hwhole : wholePart x ≤ 2 ^ 60 := by
    have h : (wholePart x : ℚ) ≤ 2 ^ (60 : Int) :=
      (wholePart_spec hx.1 h0).1.trans ((le_abs_self _).trans hx.2)
    rw [← Nat.cast_le (α := ℚ)]
    exact_mod_cast h
  have hcount : Within 60 (ofNat (wholePart x)) := within_ofNat hwhole (by decide)
  exact within_sub hx hcount (by decide) (by decide)

/-- A quantile is one of the values, or interpolates between two when its position is not whole. -/
theorem quantileSorted_cases {sorted : List Float} {q v : Float}
    (h : quantileSorted sorted q = some v) :
    v ∈ sorted ∨ ∃ a ∈ sorted, ∃ b ∈ sorted,
      v = interpolate a b (fraction (position q (sorted.length - 1))) ∧
        wholePart (position q (sorted.length - 1)) ≠
          wholeAbove (position q (sorted.length - 1)) := by
  simp only [quantileSorted] at h
  split at h
  case h_2 => cases h
  case h_1 a b hlow hhigh =>
    have ha := List.mem_of_getElem? hlow
    have hb := List.mem_of_getElem? hhigh
    rw [Option.some_inj] at h
    split at h
    case isTrue => exact .inl (h ▸ ha)
    case isFalse hne =>
      rw [Bool.or_eq_true, not_or, beq_iff_eq] at hne
      exact .inr ⟨a, ha, b, hb, h.symm, hne.1⟩

/-! ## Interpolation -/

theorem isFinite_interpolate {a b f : Float}
    (h : (a * (ofNat 1 - f) + b * f).isFinite) : (interpolate a b f).isFinite := by
  unfold interpolate
  dsimp only
  split
  case isTrue hfinite => exact hfinite
  case isFalse => exact h

/-- Between numbers that are not large, interpolation does not overflow. -/
theorem interpolate_within {k : Int} {a b f : Float} (hlow : 0 ≤ k) (hhigh : k ≤ 900)
    (ha : Within k a) (hb : Within k b) (hf : Within 61 f) :
    Within (k + 63) (interpolate a b f) := by
  have hdistance : Within (k + 1) (b - a) := within_sub hb ha (by omega) (by omega)
  have hstep : Within (k + 1 + 61) ((b - a) * f) :=
    within_mul hdistance hf (by omega) (by omega)
  have hsum : Within (k + 1 + 61 + 1) (a + (b - a) * f) :=
    within_add (ha.mono (by omega)) hstep (by omega) (by omega)
  have heq : interpolate a b f = a + (b - a) * f := if_pos hsum.1
  rw [heq]
  exact hsum.mono (by omega)

/-- Half of a finite number is at most half of the largest one. -/
theorem abs_half_le {x f : Float} (hx : x.isFinite) (hf : f.isFinite) (hhalf : value f = 1 / 2) :
    (x * f).isFinite ∧ |value (x * f)| ≤ value largest / 2 := by
  obtain ⟨p, hp, hpv⟩ := exists_value (m := twoTo 53 - 1) (e := 970) (by decide) (by decide)
    (by decide) false
  obtain ⟨n, hn, hnv⟩ := exists_value (m := twoTo 53 - 1) (e := 970) (by decide) (by decide)
    (by decide) true
  have hlargest : value largest / 2 = (twoTo 53 - 1 : ℕ) * 2 ^ (970 : Int) := by
    rw [value_largest, show (971 : Int) = 970 + 1 by decide, zpow_add_one₀ (by norm_num)]
    ring
  rw [signedValue_false, ← hlargest] at hpv
  rw [signedValue_true, ← hlargest] at hnv
  have habs := abs_le.mp (abs_value_le hx)
  have hround := isRounding_mul hx hf
  rw [hhalf] at hround
  obtain ⟨hfinite, hlow, hhigh⟩ := hround.between hn hp (by rw [hnv]; linarith)
    (by rw [hpv]; linarith)
  exact ⟨hfinite, abs_le.mpr ⟨hnv ▸ hlow, hpv ▸ hhigh⟩⟩

/-- The midpoint of any two finite numbers is finite. -/
theorem isFinite_interpolate_half {a b f : Float} (ha : a.isFinite) (hb : b.isFinite)
    (hf : f.isFinite) (hhalf : value f = 1 / 2) : (interpolate a b f).isFinite := by
  have hrest : (ofNat 1 - f).isFinite ∧ value (ofNat 1 - f) = 1 / 2 := by
    have h := isRounding_sub isFinite_one hf
    rw [value_one, hhalf, show (1 : ℚ) - 1 / 2 = 1 / 2 by norm_num] at h
    exact h.exact (m := 1) (e := -1) (by decide) (by decide) (by decide)
      (by norm_num)
  obtain ⟨hleft, hleft'⟩ := abs_half_le ha hrest.1 hrest.2
  obtain ⟨hright, hright'⟩ := abs_half_le hb hf hhalf
  rw [abs_le] at hleft' hright'
  apply isFinite_interpolate
  refine (isRounding_add hleft hright).isFinite (isFinite_neg isFinite_largest)
    isFinite_largest ?_ ?_
  · rw [value_neg isFinite_largest]
    linarith
  · linarith

/-! ## Medians and quantiles -/

theorem position_half {n : Nat} (hn : (ofNat n).isFinite) :
    IsRounding (value (ofNat n) / 2) (position half n) := by
  have h := isRounding_mul isFinite_half.1 hn
  rw [isFinite_half.2, one_div_mul_eq_div] at h
  rwa [position, clampUnit_half]

/-- A median that is not a value lies half way between two. -/
theorem fraction_half {n : Nat} (hn : (ofNat n).isFinite)
    (hne : wholePart (position half n) ≠ wholeAbove (position half n)) :
    (fraction (position half n)).isFinite ∧ value (fraction (position half n)) = 1 / 2 := by
  have hround := position_half hn
  have hwhole : ∀ k : ℕ, ¬ ((position half n).isFinite ∧ value (position half n) = k) := by
    rintro k ⟨hfinite, hvalue⟩
    obtain ⟨h1, h2⟩ := wholePart_of_value hfinite hvalue
    exact hne (h1.trans h2.symm)
  by_cases hlarge : twoTo 53 ≤ n
  · -- a large count is rounded to an even number
    obtain ⟨m, k, hm, hk, hvalue⟩ := value_ofNat_large hlarge hn
    have heven : value (ofNat n) / 2 = m * 2 ^ k := by
      rw [hvalue, pow_succ]
      ring
    rw [heven] at hround
    refine absurd (hround.exact (e := k) hm (by omega) (by omega) ?_)
      (by exact_mod_cast hwhole (m * 2 ^ k))
    rw [zpow_natCast]
  · rw [(value_ofNat (not_le.mp hlarge)).2] at hround
    obtain ⟨hfinite, hvalue⟩ := hround.exact (m := n) (e := -1)
      (not_le.mp hlarge) (by decide) (by decide) (by simp [div_eq_mul_inv])
    obtain ⟨k, rfl | rfl⟩ := Nat.even_or_odd' n
    · refine absurd ⟨hfinite, ?_⟩ (hwhole k)
      rw [hvalue]
      push_cast
      ring
    · have hk : value (position half (2 * k + 1)) = k + 1 / 2 := by
        rw [hvalue]
        push_cast
        ring
      obtain ⟨h1, h2, -⟩ := wholePart_spec hfinite (by rw [hk]; positivity)
      rw [hk] at h1 h2
      have hfloor : wholePart (position half (2 * k + 1)) = k := by
        have h3 : (wholePart (position half (2 * k + 1)) : ℚ) < (k + 1 : ℕ) := by
          push_cast
          linarith
        have h4 : (k : ℚ) < (wholePart (position half (2 * k + 1)) + 1 : ℕ) := by
          push_cast
          linarith
        have h5 := Nat.cast_lt.mp h3
        have h6 := Nat.cast_lt.mp h4
        omega
      obtain ⟨hcount, hcountv⟩ := value_ofNat (n := k) (by omega)
      have h := isRounding_sub hfinite hcount
      rw [hk, hcountv, add_sub_cancel_left] at h
      unfold fraction
      rw [hfloor]
      exact h.exact (m := 1) (e := -1) (by decide) (by decide) (by decide)
        (by norm_num)

theorem isFinite_median_sorted {sorted : List Float} (h : ∀ x ∈ sorted, x.isFinite)
    (hlength : sorted.length ≤ 2 ^ 60) {v : Float}
    (hv : quantileSorted sorted half = some v) : v.isFinite := by
  rcases quantileSorted_cases hv with hmem | ⟨a, ha, b, hb, rfl, hne⟩
  · exact h v hmem
  · have hcount : Within 60 (ofNat (sorted.length - 1)) :=
      within_ofNat ((Nat.sub_le ..).trans hlength) (by decide)
    obtain ⟨hf, hhalf⟩ := fraction_half hcount.1 hne
    exact isFinite_interpolate_half (h a ha) (h b hb) hf hhalf

theorem quantileSorted_within {k : Int} (hlow : 0 ≤ k) (hhigh : k ≤ 900) {sorted : List Float}
    (h : ∀ x ∈ sorted, Within k x) (hlength : sorted.length ≤ 2 ^ 60) {q v : Float}
    (hq : q.isFinite) (hv : quantileSorted sorted q = some v) : Within (k + 63) v := by
  rcases quantileSorted_cases hv with hmem | ⟨a, ha, b, hb, rfl, -⟩
  · exact (h v hmem).mono (by omega)
  · obtain ⟨hposition, h0⟩ := position_spec hq (n := sorted.length - 1) (by omega)
    exact interpolate_within hlow hhigh (h a ha) (h b hb) (within_fraction hposition h0)

theorem mem_ascending {x : Float} {values : List Float} : x ∈ ascending values ↔ x ∈ values :=
  List.mem_mergeSort

theorem length_ascending (values : List Float) : (ascending values).length = values.length :=
  List.length_mergeSort ..

/-- The median of finite values is finite, or zero if there are none. -/
theorem isFinite_columnMedian {values : List Float} (h : ∀ x ∈ values, x.isFinite)
    (hlength : values.length ≤ 2 ^ 60) :
    ((quantileSorted (ascending values) half).getD (ofNat 0)).isFinite := by
  cases hv : quantileSorted (ascending values) half with
  | none => exact isFinite_zero
  | some v =>
    refine isFinite_median_sorted (fun x hx => h x (mem_ascending.mp hx)) ?_ hv
    rwa [length_ascending]

/-- A quantile of values that are not large is not large, and zero if there are none. -/
theorem columnQuantile_within {k : Int} (hlow : 0 ≤ k) (hhigh : k ≤ 900) {values : List Float}
    (h : ∀ x ∈ values, Within k x) (hlength : values.length ≤ 2 ^ 60) {q : Float}
    (hq : q.isFinite) :
    Within (k + 63) ((quantileSorted (ascending values) q).getD (ofNat 0)) := by
  cases hv : quantileSorted (ascending values) q with
  | none =>
    have hzero : Within 0 (ofNat 0) := within_ofNat (k := 0) (by decide) (by decide)
    exact hzero.mono (by omega)
  | some v =>
    refine quantileSorted_within hlow hhigh (fun x hx => h x (mem_ascending.mp hx)) ?_ hq hv
    rwa [length_ascending]

theorem filter_isNumber {values : List Float} (h : ∀ x ∈ values, x.isFinite) :
    values.filter Scalar.isNumber = values := by
  rw [List.filter_eq_self]
  intro x hx
  show (!x.isNaN) = true
  rw [Bool.not_eq_true']
  exact Bool.eq_false_iff.mpr (not_isNaN_of_isFinite (h x hx))

end LoginForest
