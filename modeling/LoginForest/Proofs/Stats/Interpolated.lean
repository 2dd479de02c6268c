/-
  Quantiles as order statistics, with nothing rounded. Beside the rational numbers there is what is
  no number, which does not count; and any numbers may be taken for an overflow, which changes the
  way of interpolating but not where it leads (`exactQuantile_eq`). Shares beyond an end act as that
  end (`quantile_clamped`), and at a whole rank there is one of the numbers
  (`exists_quantile_of_rank`), the least at zero and the greatest at one. The main statement says
  of all quantiles where they lie among the numbers in ascending order (`quantile_orderStatistic`).
-/
import LoginForest.Proofs.Stats.Exact
import LoginForest.Proofs.Stats.Permuted

namespace LoginForest

/-! ## Exact numbers -/

/-- Rational numbers and, as `none`, what is no number. Nothing is rounded; the numbers that do not
fit are taken for an overflow. -/
@[reducible]
def exactScalar (fits : ℚ → Bool) : Scalar (Option ℚ) where
  add := Option.map₂ (· + ·)
  sub := Option.map₂ (· - ·)
  mul := Option.map₂ (· * ·)
  div a b := a.bind fun a => b.bind fun b => if b = 0 then none else some (a / b)
  neg := Option.map (- ·)
  count n := some n
  less a b := (Option.map₂ (fun a b => decide (a < b)) a b).getD false
  atMost a b := (Option.map₂ (fun a b => decide (a ≤ b)) a b).getD false
  same a b := (Option.map₂ (fun a b => decide (a = b)) a b).getD false
  isNumber := Option.isSome
  isFinite a := a.any fits
  precedes a b := b.all fun b => a.any (· ≤ b)
  floor a := a.elim 0 (⌊·⌋₊)
  ceiling a := a.elim 0 (⌈·⌉₊)

/-- The `q`-quantile of exact numbers. -/
def exactQuantile (fits : ℚ → Bool) (values : List (Option ℚ)) (q : ℚ) : Option (Option ℚ) :=
  @quantile (Option ℚ) (exactScalar fits) values (some q)

section Exact

variable (fits : ℚ → Bool)

theorem clampUnit_exact (q : ℚ) :
    @clampUnit (Option ℚ) (exactScalar fits) (some q) = some (clampUnit q) := by
  have hless : ∀ a b : ℚ, @Scalar.less (Option ℚ) (exactScalar fits) (some a) (some b) =
      Scalar.less a b := fun _ _ => rfl
  have hcount : ∀ n, @Scalar.count (Option ℚ) (exactScalar fits) n = some (Scalar.count n) :=
    fun _ => rfl
  unfold clampUnit
  simp only [hless, hcount, ← apply_ite some]

/-- Weighting both ends leads where a step from the lower one leads. -/
theorem interpolate_exact (a b f : ℚ) :
    @interpolate (Option ℚ) (exactScalar fits) (some a) (some b) (some f) =
      some (interpolate a b f) := by
  have hweighted : a * (((1 : ℕ) : ℚ) - f) + b * f = a + (b - a) * f := by
    push_cast
    ring
  show (if fits (a + (b - a) * f) then some (a + (b - a) * f)
    else some (a * (((1 : ℕ) : ℚ) - f) + b * f)) = some (a + (b - a) * f)
  rw [hweighted, ite_self]

theorem quantileSorted_exact (l : List ℚ) (q : ℚ) :
    @quantileSorted (Option ℚ) (exactScalar fits) (l.map some) (some q) =
      (quantileSorted l q).map some := by
  have hposition : ∀ p : ℚ, @HMul.hMul _ _ _ (@instHMul _ (exactScalar fits).toMul) (some p)
      (@Scalar.count _ (exactScalar fits) (l.length - 1)) =
        some (p * Scalar.count (l.length - 1)) := fun _ => rfl
  unfold quantileSorted
  dsimp only
  rw [List.length_map, clampUnit_exact, hposition]
  generalize clampUnit q * Scalar.count (l.length - 1) = p
  have hfloor : @Scalar.floor (Option ℚ) (exactScalar fits) (some p) = Scalar.floor p := rfl
  have hceil : @Scalar.ceiling (Option ℚ) (exactScalar fits) (some p) = Scalar.ceiling p := rfl
  have hfraction : @HSub.hSub _ _ _ (@instHSub _ (exactScalar fits).toSub) (some p)
      (@Scalar.count _ (exactScalar fits) (Scalar.floor p)) =
        some (p - Scalar.count (Scalar.floor p)) := rfl
  rw [hfloor, hceil, hfraction, List.getElem?_map, List.getElem?_map]
  cases l[Scalar.floor p]? with
  | none => rfl
  | some a =>
    cases l[Scalar.ceiling p]? with
    | none => rfl
    | some b =>
      rw [Option.map_some, Option.map_some]
      dsimp only
      rw [interpolate_exact, ← apply_ite some]
      rfl

theorem ascending_exact (l : List ℚ) :
    @ascending (Option ℚ) (exactScalar fits) (l.map some) = (ascending l).map some :=
  (List.map_mergeSort (f := some) fun _ _ _ _ => rfl).symm

theorem filter_isSome_eq (values : List (Option ℚ)) :
    values.filter Option.isSome = values.reduceOption.map some := by
  induction values with
  | nil => rfl
  | cons v values ih => cases v <;> simp [ih]

/-- What is no number does not count, and no overflow makes a difference. -/
theorem exactQuantile_eq (values : List (Option ℚ)) (q : ℚ) :
    exactQuantile fits values q = (quantile values.reduceOption q).map some := by
  show @quantileSorted _ (exactScalar fits)
    (@ascending _ (exactScalar fits) (values.filter Option.isSome)) (some q) = _
  rw [filter_isSome_eq, ascending_exact, quantileSorted_exact, quantile_rat]

end Exact

/-! ## Ranks -/

section Rank

variable {values : List ℚ} {q : ℚ}

theorem clampUnit_rat (q : ℚ) : clampUnit q = max 0 (min q 1) := by
  have hclamp : clampUnit q =
      let p := if decide (q < ((0 : ℕ) : ℚ)) then ((0 : ℕ) : ℚ) else q
      if decide (((1 : ℕ) : ℚ) < p) then ((1 : ℕ) : ℚ) else p := rfl
  rw [hclamp]
  simp only [decide_eq_true_eq, Nat.cast_zero, Nat.cast_one]
  by_cases h0 : q < 0
  · rw [if_pos h0, if_neg zero_le_one.not_gt, max_eq_left (min_le_of_left_le h0.le)]
  · by_cases h1 : 1 < q
    · rw [if_neg h0, if_pos h1, min_eq_right h1.le, max_eq_right zero_le_one]
    · rw [if_neg h0, if_neg h1, min_eq_left (not_lt.mp h1), max_eq_right (not_lt.mp h0)]

/-- A share beyond an end acts as that end. -/
theorem quantile_clamped (values : List ℚ) (q : ℚ) :
    quantile values q = quantile values (max 0 (min q 1)) := by
  have hclamp : clampUnit (max 0 (min q 1)) = clampUnit q := by
    rw [clampUnit_rat q]
    exact clampUnit_of_unit (le_max_left ..) (max_le zero_le_one (min_le_right ..))
  rw [quantile, quantile, quantileSorted, quantileSorted, hclamp]

/-- A whole rank is the place of a value. -/
theorem exists_quantile_of_rank (hv : values ≠ []) (h0 : 0 ≤ q) (h1 : q ≤ 1) {k : ℕ}
    (hk : rank q values.length = k) :
    ∃ t, quantile values q = some t ∧ (ascending values)[k]? = some t := by
  obtain ⟨t, ht, a, b, ha, hb, hat, htb⟩ := exists_quantile hv h0 h1
  rw [hk, Nat.floor_natCast] at ha
  rw [hk, Nat.ceil_natCast, ha] at hb
  obtain rfl := Option.some.inj hb
  obtain rfl := le_antisymm hat htb
  exact ⟨a, ht, ha⟩

end Rank

/-! ## Order statistics -/

/-- `t` lies at the rank of `q` among some numbers in ascending order: as far from the neighbour
below to the neighbour above as the rank is from the place of the one to that of the other, which
are both places of the numbers. This is so whether the step is added to the lower neighbour or both
are weighted. -/
structure IsInterpolated (numbers : List ℚ) (q t : ℚ) : Prop where
  floor_lt : ⌊rank q numbers.length⌋₊ < numbers.length
  ceil_lt : ⌈rank q numbers.length⌉₊ < numbers.length
  neighbours : ∃ sorted : List ℚ, sorted.Perm numbers ∧ sorted.Pairwise (· ≤ ·) ∧ ∃ a b,
    sorted[⌊rank q numbers.length⌋₊]? = some a ∧ sorted[⌈rank q numbers.length⌉₊]? = some b ∧
    let fraction := rank q numbers.length - ⌊rank q numbers.length⌋₊
    t = a + (b - a) * fraction ∧ t = a * (1 - fraction) + b * fraction

/-- `t q` is the `q`-quantile of some numbers for every `q`. -/
structure AreQuantiles (numbers : List ℚ) (t : ℚ → ℚ) : Prop where
  monotone : Monotone t
  below : ∀ q ≤ 0, t q = t 0
  above : ∀ q, 1 ≤ q → t q = t 1
  least : IsLeast {v | v ∈ numbers} (t 0)
  greatest : IsGreatest {v | v ∈ numbers} (t 1)
  between : ∀ q, t 0 ≤ t q ∧ t q ≤ t 1
  interpolated : ∀ q, 0 ≤ q → q ≤ 1 → IsInterpolated numbers q (t q)

section OrderStatistics

variable {numbers : List ℚ} {q t : ℚ}

theorem isInterpolated_quantile (hn : numbers ≠ []) (h0 : 0 ≤ q) (h1 : q ≤ 1)
    (ht : quantile numbers q = some t) : IsInterpolated numbers q t := by
  have hperm := perm_ascending numbers
  obtain ⟨a, b, ha, hb, hquantile⟩ := quantileSorted_rat (ascending_ne_nil hn) h0 h1
  rw [← quantile_rat, ht, Option.some_inj] at hquantile
  rw [hperm.length_eq] at ha hb hquantile
  have hfloor := (List.getElem?_eq_some_iff.mp ha).1
  have hceil := (List.getElem?_eq_some_iff.mp hb).1
  rw [hperm.length_eq] at hfloor hceil
  refine ⟨hfloor, hceil, ascending numbers, hperm, pairwise_ascending numbers, a, b, ha, hb,
    hquantile, ?_⟩
  rw [hquantile]
  ring

theorem isLeast_quantile_zero (hn : numbers ≠ []) (ht : quantile numbers 0 = some t) :
    IsLeast {v | v ∈ numbers} t := by
  have hperm := perm_ascending numbers
  obtain ⟨t', ht', hplace⟩ := exists_quantile_of_rank (k := 0) hn le_rfl zero_le_one
    (by rw [rank, zero_mul, Nat.cast_zero])
  obtain rfl := Option.some.inj (ht.symm.trans ht')
  refine ⟨hperm.subset (List.mem_of_getElem? hplace), fun v hv => ?_⟩
  obtain ⟨i, hi⟩ := List.mem_iff_getElem?.mp (hperm.symm.subset hv)
  exact le_of_getElem? (pairwise_ascending numbers) (Nat.zero_le i) hplace hi

theorem isGreatest_quantile_one (hn : numbers ≠ []) (ht : quantile numbers 1 = some t) :
    IsGreatest {v | v ∈ numbers} t := by
  have hperm := perm_ascending numbers
  obtain ⟨t', ht', hplace⟩ := exists_quantile_of_rank (k := numbers.length - 1) hn zero_le_one
    le_rfl (one_mul _)
  obtain rfl := Option.some.inj (ht.symm.trans ht')
  refine ⟨hperm.subset (List.mem_of_getElem? hplace), fun v hv => ?_⟩
  obtain ⟨i, hi⟩ := List.mem_iff_getElem?.mp (hperm.symm.subset hv)
  have hlast := (List.getElem?_eq_some_iff.mp hi).1
  rw [hperm.length_eq] at hlast
  exact le_of_getElem? (pairwise_ascending numbers) (Nat.le_sub_one_of_lt hlast) hi hplace

/-- Numbers have quantiles. -/
theorem exists_quantiles (hn : numbers ≠ []) :
    ∃ t : ℚ → ℚ, (∀ q, quantile numbers q = some (t q)) ∧ AreQuantiles numbers t := by
  have h0 : ∀ q : ℚ, 0 ≤ max 0 (min q 1) := fun q => le_max_left ..
  have h1 : ∀ q : ℚ, max 0 (min q 1) ≤ 1 := fun q => max_le zero_le_one (min_le_right ..)
  have hsome : ∀ q, ∃ t, quantile numbers q = some t := by
    intro q
    obtain ⟨t, ht, -⟩ := exists_quantile hn (h0 q) (h1 q)
    exact ⟨t, (quantile_clamped numbers q).trans ht⟩
  choose t ht using hsome
  have hclamped : ∀ q, t q = t (max 0 (min q 1)) := fun q =>
    Option.some.inj (by rw [← ht, ← ht, ← quantile_clamped])
  have hmono : Monotone t := by
    intro q q' hq
    rw [hclamped q, hclamped q']
    exact quantile_mono hn (h0 q) (max_le_max le_rfl (min_le_min hq le_rfl)) (h1 q') (ht _) (ht _)
  refine ⟨t, ht, ?_⟩
  constructor
  case monotone => exact hmono
  case below =>
    intro q hq
    rw [hclamped q, max_eq_left (min_le_of_left_le hq)]
  case above =>
    intro q hq
    rw [hclamped q, min_eq_right hq, max_eq_right zero_le_one]
  case least => exact isLeast_quantile_zero hn (ht 0)
  case greatest => exact isGreatest_quantile_one hn (ht 1)
  case between =>
    intro q
    rw [hclamped q]
    exact ⟨hmono (h0 q), hmono (h1 q)⟩
  case interpolated => exact fun q hq0 hq1 => isInterpolated_quantile hn hq0 hq1 (ht q)

theorem quantile_rat_eq_of_perm {numbers' : List ℚ} (h : numbers'.Perm numbers) (q : ℚ) :
    quantile numbers' q = quantile numbers q := by
  have hperm := (perm_ascending numbers').trans (h.trans (perm_ascending numbers).symm)
  rw [quantile_rat, quantile_rat,
    hperm.eq_of_pairwise' (pairwise_ascending numbers') (pairwise_ascending numbers)]

end OrderStatistics

/-! ## Values that are no numbers -/

/-- Of values that are no numbers there is no quantile. -/
theorem quantile_of_no_number {α : Type} [Scalar α] {values : List α}
    (h : ∀ v ∈ values, Scalar.isNumber v = false) (q : α) : quantile values q = none := by
  have hnil : values.filter Scalar.isNumber = [] :=
    List.filter_eq_nil_iff.mpr fun v hv => Bool.eq_false_iff.mp (h v hv)
  rw [quantile, hnil, ascending, List.mergeSort_nil]
  rfl

theorem exactQuantile_eq_none_iff (fits : ℚ → Bool) (values : List (Option ℚ)) (q : ℚ) :
    exactQuantile fits values q = none ↔ ∀ v ∈ values, v = none := by
  constructor
  · intro h v hv
    by_contra hne
    obtain ⟨a, rfl⟩ := Option.ne_none_iff_exists'.mp hne
    obtain ⟨t, ht, -⟩ := exists_quantiles (List.ne_nil_of_mem (List.reduceOption_mem_iff.mpr hv))
    rw [exactQuantile_eq, ht] at h
    cases h
  · intro h
    exact @quantile_of_no_number _ (exactScalar fits) values
      (fun v hv => by rw [h v hv]; rfl) (some q)

/-- A quantile is an order statistic with linear interpolation. Neither the order of the values nor
those of them that are no numbers make a difference, and where there are no others there is no
quantile: so it is for binary64 numbers, and with nothing rounded. Then it makes no difference
either what is taken for an overflow; and the quantiles of some numbers rise from the least of them
at zero and below to the greatest at one and above, and lie at their ranks between. -/
theorem quantile_orderStatistic :
    (∀ (values values' : List Float) (q : Float),
      (values'.filter Scalar.isNumber).Perm (values.filter Scalar.isNumber) →
        quantile values' q = quantile values q) ∧
    (∀ (values : List Float) (q : Float), (∀ v ∈ values, v.isNaN) → quantile values q = none) ∧
    (∀ fits fits' values values' q, values'.reduceOption.Perm values.reduceOption →
      exactQuantile fits' values' q = exactQuantile fits values q) ∧
    (∀ fits values q, exactQuantile fits values q = none ↔ ∀ v ∈ values, v = none) ∧
    ∀ fits values v, some v ∈ values → ∃ t : ℚ → ℚ,
      (∀ q, exactQuantile fits values q = some (some (t q))) ∧
      AreQuantiles values.reduceOption t := by
  refine ⟨fun values values' q h => ?_, fun values q h => ?_,
    fun fits fits' values values' q h => ?_, exactQuantile_eq_none_iff,
    fun fits values v hv => ?_⟩
  · rw [quantile, quantile, ascending_eq_of_perm h]
  · refine quantile_of_no_number (fun v hv => ?_) q
    show (!v.isNaN) = false
    rw [h v hv, Bool.not_true]
  · rw [exactQuantile_eq, exactQuantile_eq, quantile_rat_eq_of_perm h]
  · obtain ⟨t, ht, hquantiles⟩ :=
      exists_quantiles (List.ne_nil_of_mem (List.reduceOption_mem_iff.mpr hv))
    refine ⟨t, fun q => ?_, hquantiles⟩
    rw [exactQuantile_eq, ht, Option.map_some]

/-- Three numbers and what is no number, with every number taken for an overflow. -/
theorem quantile_orderStatistic_threeNumbers :
    let values : List (Option ℚ) := [some 3, none, some 1, some 7]
    let values' : List (Option ℚ) := [some 7, some 1, none, none, some 3]
    ∃ t : ℚ → ℚ, AreQuantiles [3, 1, 7] t ∧ ∀ q,
      exactQuantile (fun _ => false) values q = some (some (t q)) ∧
      exactQuantile (fun _ => true) values' q = some (some (t q)) := by
  intro values values'
  obtain ⟨-, -, hperm, -, hnumbers⟩ := quantile_orderStatistic
  obtain ⟨t, ht, hquantiles⟩ := hnumbers (fun _ => false) values 3 List.mem_cons_self
  have hreverse : values'.reduceOption.Perm values.reduceOption :=
    List.reverse_perm [(3 : ℚ), 1, 7]
  refine ⟨t, hquantiles, fun q => ⟨ht q, ?_⟩⟩
  rw [hperm (fun _ => false) (fun _ => true) values values' q hreverse, ht]

end LoginForest
