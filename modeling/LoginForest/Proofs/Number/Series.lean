/-
  The logarithm and the powers of two by their series. A partial sum at a rational is a rational,
  which is rounded to the nearest number. The sums lie below the real functions, by a part of less
  than `2^-80` (`logSum_near`, `powerSum_near`); so the functions that they give have the bounds that
  finiteness asks for (`lawful_series`).
-/
import LoginForest.Proofs.Number.Sign

namespace LoginForest.Number

/-! ## The logarithm -/

/-- The first terms of `artanh y = y + y³ / 3 + y⁵ / 5 + …`. -/
def artanhSum (y : ℚ) : ℚ := ∑ i ∈ Finset.range 30, y ^ (2 * i + 1) / (2 * i + 1)

/-- Twice the sum at `(r - 1) / (r + 1)`, for `ln r`. -/
def reducedLogSum (r : ℚ) : ℚ := 2 * artanhSum ((r - 1) / (r + 1))

/-- The exponent of the power of two next below a number from one on. -/
def binaryPower (q : ℚ) : ℕ := Nat.log2 ⌊q⌋₊

/-- `ln q` from one on, as `k ln 2 + ln r` with `q = 2^k r`. -/
def logSum (q : ℚ) : ℚ :=
  binaryPower q * reducedLogSum 2 + reducedLogSum (q / 2 ^ binaryPower q)

/-- A sum below `v` that misses no more than the part `ε` of itself. -/
def NearBelow (ε sum v : ℝ) : Prop := sum ≤ v ∧ v ≤ sum * (1 + ε)

theorem le_artanhSum {y : ℚ} (h : 0 ≤ y) : y ≤ artanhSum y := by
  have hrest : 0 ≤ ∑ i ∈ Finset.range 29, y ^ (2 * (i + 1) + 1) / (2 * ((i + 1 : ℕ) : ℚ) + 1) :=
    Finset.sum_nonneg fun i _ => by positivity
  unfold artanhSum
  rw [Finset.sum_range_succ']
  simpa using hrest

/-- What is left of the series is small beside its first term. -/
theorem artanhSum_near {y : ℚ} (h0 : 0 ≤ y) (h1 : y ≤ 1 / 3) :
    NearBelow (2⁻¹ ^ 90) (artanhSum y) (1 / 2 * Real.log ((1 + y) / (1 - y))) := by
  have hcast : (artanhSum y : ℝ) = ∑ i ∈ Finset.range 30, (y : ℝ) ^ (2 * i + 1) / (2 * i + 1) := by
    unfold artanhSum
    push_cast
    rfl
  have hfirst : (y : ℝ) ≤ artanhSum y := by exact_mod_cast le_artanhSum h0
  have h0' : (0 : ℝ) ≤ y := by exact_mod_cast h0
  have h1' : (y : ℝ) ≤ 1 / 3 := by
    have hcast : (y : ℝ) ≤ ((1 / 3 : ℚ) : ℝ) := by exact_mod_cast h1
    simpa using hcast
  have hlow := Real.sum_range_le_log_div h0' (by linarith) 30
  have hhigh := Real.log_div_le_sum_range_add h0' (by linarith) 30
  rw [← hcast] at hlow hhigh
  generalize (y : ℝ) = t at *
  have hrest : t ^ (2 * 30 + 1) / (1 - t ^ 2) ≤ t * 2⁻¹ ^ 90 := by
    have hsquare : t ^ 2 ≤ (1 / 3) ^ 2 := pow_le_pow_left₀ h0' h1' 2
    have hpower : t ^ (2 * 30) ≤ (1 / 3) ^ (2 * 30) := pow_le_pow_left₀ h0' h1' _
    rw [div_le_iff₀ (by linarith)]
    calc t ^ (2 * 30 + 1) = t * t ^ (2 * 30) := pow_succ' t _
      _ ≤ t * (2⁻¹ ^ 90 * (8 / 9)) := mul_le_mul_of_nonneg_left (hpower.trans (by norm_num)) h0'
      _ ≤ t * (2⁻¹ ^ 90 * (1 - t ^ 2)) := by gcongr; linarith
      _ = t * 2⁻¹ ^ 90 * (1 - t ^ 2) := (mul_assoc _ _ _).symm
  exact ⟨hlow, by nlinarith⟩

section Reduced

variable {r : ℚ}

theorem reduced_argument (h1 : 1 ≤ r) (h2 : r ≤ 2) :
    0 ≤ (r - 1) / (r + 1) ∧ (r - 1) / (r + 1) ≤ 1 / 3 := by
  have hpos : 0 < r + 1 := by linarith
  exact ⟨div_nonneg (by linarith) hpos.le, (div_le_iff₀ hpos).mpr (by linarith)⟩

theorem reducedLogSum_near (h1 : 1 ≤ r) (h2 : r ≤ 2) :
    NearBelow (2⁻¹ ^ 90) (reducedLogSum r) (Real.log r) := by
  obtain ⟨hlow, hhigh⟩ := reduced_argument h1 h2
  have hnear := artanhSum_near hlow hhigh
  have hpos : (r : ℝ) + 1 ≠ 0 := by
    have hone : (1 : ℝ) ≤ r := by exact_mod_cast h1
    linarith
  have hquotient : (1 + (((r - 1) / (r + 1) : ℚ) : ℝ)) / (1 - ((r - 1) / (r + 1) : ℚ)) = r := by
    push_cast
    field_simp
    ring
  rw [hquotient] at hnear
  unfold NearBelow reducedLogSum at *
  push_cast at *
  constructor <;> linarith [hnear.1, hnear.2]

theorem reducedLogSum_nonneg (h1 : 1 ≤ r) (h2 : r ≤ 2) : 0 ≤ reducedLogSum r := by
  have hlow := (reduced_argument h1 h2).1
  exact mul_nonneg zero_le_two (hlow.trans (le_artanhSum hlow))

end Reduced

section Logarithm

variable {q : ℚ}

/-- The power of two leaves a factor between one and two. -/
theorem binaryPower_spec (h : 1 ≤ q) :
    1 ≤ q / 2 ^ binaryPower q ∧ q / 2 ^ binaryPower q ≤ 2 := by
  have hfloor : ⌊q⌋₊ ≠ 0 := (Nat.floor_pos.mpr h).ne'
  have hpos : (0 : ℚ) < 2 ^ binaryPower q := by positivity
  have hlow : ((2 ^ binaryPower q : ℕ) : ℚ) ≤ ⌊q⌋₊ := Nat.cast_le.mpr (Nat.log2_self_le hfloor)
  have hhigh : ((⌊q⌋₊ + 1 : ℕ) : ℚ) ≤ (2 ^ (binaryPower q + 1) : ℕ) :=
    Nat.cast_le.mpr (Nat.succ_le_of_lt Nat.lt_log2_self)
  push_cast at hlow hhigh
  rw [le_div_iff₀ hpos, div_le_iff₀ hpos, one_mul, ← pow_succ']
  exact ⟨hlow.trans (Nat.floor_le (by linarith)), (Nat.lt_floor_add_one q).le.trans hhigh⟩

theorem logSum_near (h : 1 ≤ q) : NearBelow (2⁻¹ ^ 90) (logSum q) (Real.log q) := by
  obtain ⟨hlow, hhigh⟩ := binaryPower_spec h
  have htwo := reducedLogSum_near one_le_two le_rfl
  have hrest := reducedLogSum_near hlow hhigh
  have hq : (0 : ℝ) < q := by exact_mod_cast lt_of_lt_of_le one_pos h
  have hlog : Real.log q =
      binaryPower q * Real.log (2 : ℚ) + Real.log ((q / 2 ^ binaryPower q : ℚ) : ℝ) := by
    push_cast
    rw [Real.log_div hq.ne' (by positivity), Real.log_pow]
    ring
  have hk : (0 : ℝ) ≤ binaryPower q := Nat.cast_nonneg _
  have htwoLow := mul_le_mul_of_nonneg_left htwo.1 hk
  have htwoHigh := mul_le_mul_of_nonneg_left htwo.2 hk
  unfold NearBelow logSum
  rw [hlog]
  push_cast at *
  constructor <;> linarith [hrest.1, hrest.2]

theorem logSum_nonneg (h : 1 ≤ q) : 0 ≤ logSum q := by
  obtain ⟨hlow, hhigh⟩ := binaryPower_spec h
  exact add_nonneg (mul_nonneg (Nat.cast_nonneg _) (reducedLogSum_nonneg one_le_two le_rfl))
    (reducedLogSum_nonneg hlow hhigh)

theorem logSum_le_sub_one (h : 1 ≤ q) : logSum q ≤ q - 1 := by
  have hq : (0 : ℝ) < q := by exact_mod_cast lt_of_lt_of_le one_pos h
  have hle := (logSum_near h).1.trans (Real.log_le_sub_one_of_pos hq)
  exact_mod_cast hle

theorem half_le_logSum (h : 2 ≤ q) : 1 / 2 ≤ logSum q := by
  have hq : (2 : ℝ) ≤ q := by exact_mod_cast h
  have hlog := Real.log_le_log two_pos hq
  have hnear := (logSum_near (by linarith : 1 ≤ q)).2
  have htwo := Real.log_two_gt_d9
  have hhalf : (((1 / 2 : ℚ)) : ℝ) ≤ logSum q := by
    push_cast
    by_contra hless
    rw [not_le] at hless
    have : (logSum q : ℝ) * (1 + 2⁻¹ ^ 90) ≤ 1 / 2 * (1 + 2⁻¹ ^ 90) := by gcongr
    norm_num at this hnear
    linarith
  exact_mod_cast hhalf

end Logarithm

/-! ## Powers of two -/

/-- The first terms of `exp t = 1 + t + t² / 2 + …`. -/
def expSum (t : ℚ) : ℚ := ∑ i ∈ Finset.range 30, t ^ i / (i.factorial : ℚ)

/-- `2^q`, as `2^k exp (f ln 2)` with the whole part `k` and the rest `f` of `q`. -/
def powerSum (q : ℚ) : ℚ := 2 ^ ⌊q⌋ * expSum (Int.fract q * reducedLogSum 2)

theorem one_le_expSum {t : ℚ} (h : 0 ≤ t) : 1 ≤ expSum t := by
  have hrest : 0 ≤ ∑ i ∈ Finset.range 29, t ^ (i + 1) / ((i + 1).factorial : ℚ) :=
    Finset.sum_nonneg fun i _ => by positivity
  unfold expSum
  rw [Finset.sum_range_succ']
  simpa using hrest

theorem expSum_near {t : ℚ} (h0 : 0 ≤ t) (h1 : t ≤ 1) :
    NearBelow (2⁻¹ ^ 100) (expSum t) (Real.exp t) := by
  have hcast : (expSum t : ℝ) = ∑ i ∈ Finset.range 30, (t : ℝ) ^ i / (i.factorial : ℝ) := by
    unfold expSum
    push_cast
    rfl
  have h0' : (0 : ℝ) ≤ t := by exact_mod_cast h0
  have h1' : (t : ℝ) ≤ 1 := by exact_mod_cast h1
  have hfirst : (1 : ℝ) ≤ expSum t := by exact_mod_cast one_le_expSum h0
  have hhigh := Real.exp_bound' h0' h1' (n := 30) (by norm_num)
  rw [← hcast] at hhigh
  refine ⟨hcast ▸ Real.sum_le_exp_of_nonneg h0' 30, hhigh.trans ?_⟩
  have hpower : (t : ℝ) ^ 30 ≤ 1 := pow_le_one₀ h0' h1'
  have hrest : (t : ℝ) ^ 30 * ((30 : ℕ) + 1) / ((Nat.factorial 30) * (30 : ℕ)) ≤ 2⁻¹ ^ 100 := by
    calc (t : ℝ) ^ 30 * ((30 : ℕ) + 1) / ((Nat.factorial 30) * (30 : ℕ))
        ≤ 1 * ((30 : ℕ) + 1) / ((Nat.factorial 30) * (30 : ℕ)) := by gcongr
      _ ≤ 2⁻¹ ^ 100 := by norm_num [Nat.factorial]
  have hpart : (2⁻¹ : ℝ) ^ 100 ≤ expSum t * 2⁻¹ ^ 100 :=
    le_mul_of_one_le_left (by positivity) hfirst
  linarith

/-- The series at `f` times the sum for `ln 2`: what both miss is little. -/
theorem fractPower_near {f : ℚ} (h0 : 0 ≤ f) (h1 : f ≤ 1) :
    NearBelow (2⁻¹ ^ 80) (expSum (f * reducedLogSum 2)) ((2 : ℝ) ^ (f : ℝ)) := by
  obtain ⟨hlow, hhigh⟩ := reducedLogSum_near one_le_two le_rfl
  push_cast at hlow hhigh
  have hnonneg := reducedLogSum_nonneg one_le_two le_rfl
  have hone : (reducedLogSum 2 : ℝ) ≤ 1 := hlow.trans (Real.log_two_lt_d9.le.trans (by norm_num))
  have hexp := expSum_near (mul_nonneg h0 hnonneg) (mul_le_one₀ h1 hnonneg (by exact_mod_cast hone))
  have hfirst := one_le_expSum (mul_nonneg h0 hnonneg)
  have h0' : (0 : ℝ) ≤ f := by exact_mod_cast h0
  have h1' : (f : ℝ) ≤ 1 := by exact_mod_cast h1
  have hfirst' : (1 : ℝ) ≤ expSum (f * reducedLogSum 2) := by exact_mod_cast hfirst
  rw [Real.rpow_def_of_pos two_pos]
  push_cast at hexp
  generalize (expSum (f * reducedLogSum 2) : ℝ) = sum at *
  generalize (reducedLogSum 2 : ℝ) = l at *
  generalize (f : ℝ) = f at *
  have hmissed : 0 ≤ f * (Real.log 2 - l) ∧ f * (Real.log 2 - l) ≤ 2⁻¹ ^ 90 := by
    have hpart : l * 2⁻¹ ^ 90 ≤ 2⁻¹ ^ 90 := mul_le_of_le_one_left (by positivity) hone
    have hle : 0 ≤ Real.log 2 - l := sub_nonneg.mpr hlow
    exact ⟨mul_nonneg h0' hle, (mul_le_of_le_one_left hle h1').trans (by linarith)⟩
  have hgrowth : Real.exp (f * (Real.log 2 - l)) - 1 ≤ 2 * (f * (Real.log 2 - l)) := by
    have habs := abs_of_nonneg hmissed.1
    have hbound := Real.abs_exp_sub_one_le (habs.trans_le (hmissed.2.trans (by norm_num)))
    rw [habs] at hbound
    exact (le_abs_self _).trans hbound
  constructor
  · exact hexp.1.trans (Real.exp_le_exp.mpr (by linarith [hmissed.1]))
  · calc Real.exp (Real.log 2 * f)
        = Real.exp (f * l) * Real.exp (f * (Real.log 2 - l)) := by rw [← Real.exp_add]; ring_nf
      _ ≤ sum * (1 + 2⁻¹ ^ 100) * (1 + 2 * 2⁻¹ ^ 90) := by
          gcongr
          · exact hexp.2
          · linarith [hmissed.2]
      _ = sum * ((1 + 2⁻¹ ^ 100) * (1 + 2 * 2⁻¹ ^ 90)) := mul_assoc _ _ _
      _ ≤ sum * (1 + 2⁻¹ ^ 80) := by gcongr; norm_num

theorem powerSum_near (q : ℚ) : NearBelow (2⁻¹ ^ 80) (powerSum q) ((2 : ℝ) ^ (q : ℝ)) := by
  obtain ⟨hlow, hhigh⟩ := fractPower_near (Int.fract_nonneg q) (Int.fract_lt_one q).le
  have hpos : (0 : ℝ) < 2 ^ ⌊q⌋ := zpow_pos two_pos _
  have hpower : (2 : ℝ) ^ (q : ℝ) = 2 ^ ⌊q⌋ * 2 ^ ((Int.fract q : ℚ) : ℝ) := by
    rw [← Real.rpow_intCast, ← Real.rpow_add two_pos]
    congr 1
    exact_mod_cast (Int.floor_add_fract q).symm
  have hcast : (powerSum q : ℝ) = 2 ^ ⌊q⌋ * expSum (Int.fract q * reducedLogSum 2) := by
    unfold powerSum
    push_cast
    rfl
  rw [NearBelow, hpower, hcast, mul_assoc]
  exact ⟨mul_le_mul_of_nonneg_left hlow hpos.le, mul_le_mul_of_nonneg_left hhigh hpos.le⟩

theorem powerSum_nonneg (q : ℚ) : 0 ≤ powerSum q :=
  mul_nonneg (zpow_nonneg zero_le_two _) <| zero_le_one.trans <| one_le_expSum <|
    mul_nonneg (Int.fract_nonneg q) (reducedLogSum_nonneg one_le_two le_rfl)

theorem powerSum_le_one {q : ℚ} (h : q ≤ 0) : powerSum q ≤ 1 := by
  have hq : (q : ℝ) ≤ 0 := by exact_mod_cast h
  have hle := (powerSum_near q).1.trans (Real.rpow_le_one_of_one_le_of_nonpos one_le_two hq)
  exact_mod_cast hle

/-! ## Numbers -/

/-- The number nearest to a rational. -/
def rounded (q : ℚ) : Float := nearest (q < 0) q.num.natAbs q.den

theorem isRounding_rounded {q : ℚ} (h : 0 ≤ q) : IsRounding q (rounded q) := by
  have hsign : decide (q < 0) = false := decide_eq_false (not_lt.mpr h)
  rw [rounded, hsign]
  rcases h.eq_or_lt with rfl | hpos
  · exact isRounding_ofNat 0
  · have hnum : 0 < q.num := Rat.num_pos.mpr hpos
    have hround := isRounding_nearest (Int.natAbs_pos.mpr hnum.ne') q.den_pos
    rwa [Nat.cast_natAbs, abs_of_pos hnum, Rat.num_div_den] at hround

/-- Nothing from zero on is rounded to the negative zero. -/
theorem rounded_ne {q : ℚ} (h : 0 ≤ q) : rounded q ≠ -ofNat 0 := by
  have hsign : decide (q < 0) = false := decide_eq_false (not_lt.mpr h)
  have hzero : parts (-ofNat 0) = .finite true 0 (-1074) := by decide +kernel
  rw [rounded, hsign]
  intro heq
  rcases h.eq_or_lt with rfl | hpos
  · have hparts : parts (nearest false 0 1) = .finite false 0 (-1074) := parts_nearest_zero false
    rw [show nearest false 0 1 = -ofNat 0 from heq, hzero] at hparts
    cases hparts
  · obtain ⟨m, e, -, -, hparts⟩ :=
      exists_parts_nearest (Int.natAbs_pos.mpr (Rat.num_pos.mpr hpos).ne') q.den_pos
    rw [heq, hzero] at hparts
    split at hparts <;> cases hparts

/-- What is rounded from zero or more is bounded by the numbers that bound it. -/
theorem rounded_bounds {q : ℚ} {x : Float} (hx : x.isFinite) (h0 : 0 ≤ q) (h : q ≤ value x) :
    ofNat 0 ≤ rounded q ∧ rounded q ≤ x := by
  have hround := isRounding_rounded h0
  rw [← value_zero] at h0
  exact ⟨hround.le isFinite_zero h0, hround.ge hx h⟩

/-- `ln q` of a positive rational. -/
def lnSum (q : ℚ) : ℚ := if 1 ≤ q then logSum q else -logSum q⁻¹

/-- A function of rationals, at finite numbers. -/
def atFinite (f : ℚ → ℚ) (x : Float) : Float := if x.isFinite then rounded (f (value x)) else x

theorem atFinite_eq {f : ℚ → ℚ} {x : Float} (hx : x.isFinite) :
    atFinite f x = rounded (f (value x)) := if_pos hx

end LoginForest.Number

namespace LoginForest

open Number

/-- The functions that the series give: logarithms of what is positive, and powers of two. -/
@[reducible]
def Elementary.series : Elementary where
  log := atFinite lnSum
  log1p := atFinite fun q => lnSum (1 + q)
  twoToThe x := if !x.isFinite && x ≤ ofNat 0 then ofNat 0 else atFinite powerSum x

theorem Elementary.lawful_series : @Elementary.Lawful Elementary.series := by
  refine @Elementary.Lawful.mk series ?_ ?_ ?_ ?_
  · intro x hx h1
    rw [le_iff_value isFinite_one hx, value_one] at h1
    have hle := logSum_le_sub_one h1
    show ofNat 0 ≤ atFinite lnSum x ∧ atFinite lnSum x ≤ x
    rw [atFinite_eq hx, lnSum, if_pos h1]
    exact rounded_bounds hx (logSum_nonneg h1) (by linarith)
  · intro x hx h2
    rw [le_iff_value (value_ofNat (by decide)).1 hx, (value_ofNat (by decide)).2] at h2
    have hhalf := half_le_logSum h2
    show half ≤ atFinite lnSum x
    rw [atFinite_eq hx, lnSum, if_pos (one_le_two.trans h2)]
    refine (isRounding_rounded (by linarith)).le isFinite_half.1 ?_
    rwa [isFinite_half.2]
  · intro x hx h0
    rw [le_iff_value isFinite_zero hx, value_zero] at h0
    have h1 : 1 ≤ 1 + value x := by linarith
    have hle := logSum_le_sub_one h1
    show ofNat 0 ≤ atFinite (fun q => lnSum (1 + q)) x ∧ atFinite (fun q => lnSum (1 + q)) x ≤ x
    rw [atFinite_eq hx, lnSum, if_pos h1]
    exact rounded_bounds hx (logSum_nonneg h1) (by linarith)
  · intro x h0
    show ofNat 0 ≤ (if !x.isFinite && x ≤ ofNat 0 then ofNat 0 else atFinite powerSum x) ∧
      (if !x.isFinite && x ≤ ofNat 0 then ofNat 0 else atFinite powerSum x) ≤ ofNat 1
    cases hx : x.isFinite with
    | false =>
      rw [if_pos (by simp [h0])]
      exact ⟨zero_le_ofNat 0, zero_le_ofNat 1⟩
    | true =>
      rw [if_neg (by simp), atFinite_eq hx]
      rw [le_iff_value hx isFinite_zero, value_zero] at h0
      refine rounded_bounds isFinite_one (powerSum_nonneg _) ?_
      rw [value_one]
      exact powerSum_le_one h0

theorem Elementary.twoToThe_series_ne (x : Float) :
    @Elementary.twoToThe series x ≠ -ofNat 0 := by
  show (if !x.isFinite && x ≤ ofNat 0 then ofNat 0 else atFinite powerSum x) ≠ -ofNat 0
  split
  case isTrue => exact fun heq => absurd (congrArg Float.toBits heq) (by decide +kernel)
  case isFalse =>
    cases hx : x.isFinite with
    | true =>
      rw [atFinite_eq hx]
      exact rounded_ne (powerSum_nonneg _)
    | false =>
      rw [atFinite, if_neg (by simp [hx])]
      rintro rfl
      rw [isFinite_neg isFinite_zero] at hx
      cases hx

end LoginForest
