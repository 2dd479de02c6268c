/-
  Bounds that arithmetic keeps. A number is `Within k` when it is finite and at most `2^k` in
  magnitude; as powers of two are numbers, rounding does not leave such a bound. Counts are
  rounded, and those below `2^53` are exact.
-/
import LoginForest.Proofs.Number.Arithmetic
import LoginForest.Proofs.Number.Nearest

namespace LoginForest.Number

/-! ## Numbers for given values -/

/-- A mantissa of at most 53 bits can be made canonical without a larger exponent. -/
theorem exists_canonical {m : Nat} {e : Int} (hm : m < twoTo 53) (he : -1074 ≤ e) (h0 : 0 < m) :
    ∃ m' e', Canonical m' e' ∧ e' ≤ e ∧ (m' : ℚ) * 2 ^ e' = m * 2 ^ e := by
  have hlog : m.log2 ≤ 52 := Nat.lt_succ_iff.mp ((Nat.log2_lt h0.ne').mpr hm)
  obtain ⟨k, hk⟩ : ∃ k : ℕ, k = min (52 - m.log2) (e + 1074).toNat := ⟨_, rfl⟩
  refine ⟨m * 2 ^ k, e - k, ⟨?_, by omega, ?_⟩, by omega, ?_⟩
  · calc m * 2 ^ k < 2 ^ (m.log2 + 1) * 2 ^ k :=
          Nat.mul_lt_mul_of_pos_right Nat.lt_log2_self (by positivity)
      _ = 2 ^ (m.log2 + 1 + k) := (pow_add ..).symm
      _ ≤ 2 ^ 53 := Nat.pow_le_pow_right (by decide) (by omega)
  · by_cases hmin : e - (k : Int) = -1074
    · exact .inr hmin
    · left
      calc twoTo 52 = 2 ^ (m.log2 + k) := by
            rw [show m.log2 + k = 52 by omega]
            rfl
        _ = 2 ^ m.log2 * 2 ^ k := pow_add ..
        _ ≤ m * 2 ^ k := Nat.mul_le_mul_right _ (Nat.log2_self_le h0.ne')
  · rw [zpow_sub₀ (by norm_num), zpow_natCast]
    push_cast
    field_simp

/-- A mantissa and an exponent in range make a number. -/
theorem exists_value {m : Nat} {e : Int} (hm : m < twoTo 53) (hlow : -1074 ≤ e) (hhigh : e ≤ 971)
    (negative : Bool) : ∃ x : Float, x.isFinite ∧ value x = signedValue negative m e := by
  rcases Nat.eq_zero_or_pos m with rfl | h0
  · have hp := parts_packed_zero negative
    exact ⟨_, isFinite_of_parts hp, by rw [value_of_parts hp, signedValue_zero, signedValue_zero]⟩
  · obtain ⟨m', e', hc, he, hvalue⟩ := exists_canonical hm hlow h0
    have hp := parts_ofBits_encode hc (he.trans hhigh) negative
    refine ⟨_, isFinite_of_parts hp, ?_⟩
    rw [value_of_parts hp, signedValue, signedValue, hvalue]

/-- A result that a number can be is not rounded. -/
theorem IsRounding.exact {r : ℚ} {x : Float} (h : IsRounding r x) {m : Nat} {e : Int}
    (hm : m < twoTo 53) (hlow : -1074 ≤ e) (hhigh : e ≤ 971) (hr : r = m * 2 ^ e) :
    x.isFinite ∧ value x = r := by
  obtain ⟨p, hp, hvalue⟩ := exists_value hm hlow hhigh false
  rw [signedValue_false, ← hr] at hvalue
  rw [← hvalue]
  exact h.value_eq hp hvalue.symm

/-- No finite number is larger than the largest. -/
theorem abs_value_le {x : Float} (hx : x.isFinite) : |value x| ≤ value largest := by
  obtain ⟨negative, m, e, hp⟩ := isFinite_iff.mp hx
  obtain ⟨hc, he, -⟩ := encode_parts hp
  have hm : (m : ℚ) ≤ (twoTo 53 - 1 : ℕ) := by exact_mod_cast Nat.le_pred_of_lt hc.lt
  rw [value_of_parts hp, abs_signedValue, value_largest]
  exact mul_le_mul hm (two_zpow_le he) (two_zpow_pos e).le (Nat.cast_nonneg _)

/-! ## Bounds -/

/-- Finite and at most `2^k` in magnitude. -/
def Within (k : Int) (x : Float) : Prop := x.isFinite ∧ |value x| ≤ 2 ^ k

theorem Within.mono {j k : Int} {x : Float} (h : Within j x) (hjk : j ≤ k) : Within k x :=
  ⟨h.1, h.2.trans (two_zpow_le hjk)⟩

/-- Twice a number that is not too large is a number. -/
theorem Within.exists_double {x : Float} (h : Within 970 x) :
    ∃ p : Float, p.isFinite ∧ value p = 2 * value x := by
  obtain ⟨hx, hle⟩ := h
  obtain ⟨negative, m, e, hp⟩ := isFinite_iff.mp hx
  obtain ⟨hc, -, -⟩ := encode_parts hp
  have hscale : ∀ a : ℚ, 2 * (a * 2 ^ e) = a * 2 ^ (e + 1) := by
    intro a
    rw [zpow_add_one₀ (by norm_num)]
    ring
  have hdouble : 2 * value x = signedValue negative m (e + 1) := by
    rw [value_of_parts hp]
    cases negative
    · exact hscale m
    · rw [signedValue_true, signedValue_true, mul_neg, hscale]
  rcases Nat.eq_zero_or_pos m with rfl | hm
  · refine ⟨x, hx, ?_⟩
    rw [hdouble, value_of_parts hp, signedValue_zero, signedValue_zero]
  · have he : e ≤ 970 := by
      have hone : (1 : ℚ) ≤ m := by exact_mod_cast hm
      have hpow : (2 : ℚ) ^ e ≤ 2 ^ (970 : Int) := by
        rw [value_of_parts hp, abs_signedValue] at hle
        exact (le_mul_of_one_le_left (two_zpow_pos e).le hone).trans hle
      exact (zpow_le_zpow_iff_right₀ (by norm_num)).mp hpow
    rw [hdouble]
    exact exists_value hc.lt (by have := hc.ge; omega) (by omega) negative

theorem IsRounding.within {r : ℚ} {x : Float} (h : IsRounding r x) {k : Int} (hlow : -1074 ≤ k)
    (hhigh : k ≤ 971) (hr : |r| ≤ 2 ^ k) : Within k x := by
  obtain ⟨p, hp, hpv⟩ := exists_value (m := 1) (by decide) hlow hhigh false
  obtain ⟨n, hn, hnv⟩ := exists_value (m := 1) (by decide) hlow hhigh true
  rw [signedValue_false, Nat.cast_one, one_mul] at hpv
  rw [signedValue_true, Nat.cast_one, one_mul] at hnv
  rw [abs_le] at hr
  obtain ⟨hx, hlow', hhigh'⟩ := h.between hn hp (hnv ▸ hr.1) (hpv ▸ hr.2)
  exact ⟨hx, abs_le.mpr ⟨hnv ▸ hlow', hpv ▸ hhigh'⟩⟩

/-- The nearest number is off by one half of the last place at most. -/
theorem IsNearest.abs_sub_le {r : ℚ} {x : Float} (h : IsNearest r x) (hx : x.isFinite) {k : Int}
    (hlow : -1022 ≤ k) (hhigh : k ≤ 1022) (hr : |r| ≤ 2 ^ k) : |value x - r| ≤ 2 ^ (k - 53) := by
  have hpos := two_zpow_pos (k - 52)
  have hlast : (2 : ℚ) ^ (k - 53) = 1 / 2 * 2 ^ (k - 52) := by
    rw [show k - 52 = k - 53 + 1 by ring, zpow_add_one₀ (by norm_num)]
    ring
  have hfull : (2 : ℚ) ^ k = twoTo 52 * 2 ^ (k - 52) := by
    rw [twoTo_cast, ← zpow_add₀ (by norm_num)]
    congr 1
    ring
  -- the nearest multiple of the last place is a number
  have hround := abs_sub_round (r / 2 ^ (k - 52))
  have hmantissa : (round (r / 2 ^ (k - 52))).natAbs < twoTo 53 := by
    have hle : |r / 2 ^ (k - 52)| ≤ twoTo 52 := by
      rw [abs_div, abs_of_pos hpos, div_le_iff₀ hpos, ← hfull]
      exact hr
    have hlt : |(round (r / 2 ^ (k - 52)) : ℚ)| < (twoTo 52 + 1 : ℕ) := by
      rw [abs_sub_comm] at hround
      have := abs_sub_abs_le_abs_sub (round (r / 2 ^ (k - 52)) : ℚ) (r / 2 ^ (k - 52))
      push_cast
      linarith
    rw [← Int.cast_abs, Int.abs_eq_natAbs] at hlt
    exact (Nat.lt_add_one_iff.mp (by exact_mod_cast hlt)).trans_lt (by decide)
  obtain ⟨p, hp, hvalue⟩ := exists_value hmantissa (e := k - 52) (by omega) (by omega)
    (decide (round (r / 2 ^ (k - 52)) < 0))
  have hp' : value p = round (r / 2 ^ (k - 52)) * 2 ^ (k - 52) := by
    rw [hvalue, signedValue]
    rcases lt_or_ge (round (r / 2 ^ (k - 52))) 0 with hneg | hnonneg
    · rw [decide_eq_true hneg, if_pos rfl, ← neg_mul, ← Int.cast_natCast, ← Int.cast_neg,
        Int.ofNat_natAbs_of_nonpos hneg.le, neg_neg]
    · rw [decide_eq_false hnonneg.not_gt, if_neg Bool.false_ne_true, ← Int.cast_natCast,
        Int.natAbs_of_nonneg hnonneg]
  calc |value x - r| ≤ |value p - r| := h.closest hx p hp
    _ = |r / 2 ^ (k - 52) - round (r / 2 ^ (k - 52))| * 2 ^ (k - 52) := by
        rw [abs_sub_comm, hp', ← abs_of_pos hpos, ← abs_mul, abs_of_pos hpos, sub_mul,
          div_mul_cancel₀ _ hpos.ne']
    _ ≤ 1 / 2 * 2 ^ (k - 52) := mul_le_mul_of_nonneg_right hround hpos.le
    _ = 2 ^ (k - 53) := hlast.symm

section Arithmetic

variable {j k : Int} {x y : Float}

theorem within_add (hx : Within k x) (hy : Within k y) (hlow : -1074 ≤ k) (hhigh : k ≤ 970) :
    Within (k + 1) (x + y) := by
  refine (isRounding_add hx.1 hy.1).within (by omega) (by omega) ?_
  rw [zpow_add_one₀ (by norm_num), mul_two]
  exact (abs_add_le _ _).trans (add_le_add hx.2 hy.2)

theorem within_sub (hx : Within k x) (hy : Within k y) (hlow : -1074 ≤ k) (hhigh : k ≤ 970) :
    Within (k + 1) (x - y) := by
  refine (isRounding_sub hx.1 hy.1).within (by omega) (by omega) ?_
  rw [zpow_add_one₀ (by norm_num), mul_two]
  exact (abs_sub _ _).trans (add_le_add hx.2 hy.2)

theorem within_mul (hx : Within j x) (hy : Within k y) (hlow : -1074 ≤ j + k)
    (hhigh : j + k ≤ 971) : Within (j + k) (x * y) := by
  refine (isRounding_mul hx.1 hy.1).within hlow hhigh ?_
  rw [abs_mul, zpow_add₀ (by norm_num)]
  exact mul_le_mul hx.2 hy.2 (abs_nonneg _) (two_zpow_pos _).le

/-- A quotient by a number that is at least one is no larger. -/
theorem within_div (hx : Within k x) (hy : y.isFinite) (hy1 : 1 ≤ value y) (hlow : -1074 ≤ k)
    (hhigh : k ≤ 971) : Within k (x / y) := by
  refine (isRounding_div hx.1 hy (by linarith)).within hlow hhigh ?_
  rw [abs_div, div_le_iff₀ (abs_pos.mpr (by linarith))]
  have : (1 : ℚ) ≤ |value y| := hy1.trans (le_abs_self _)
  exact hx.2.trans (le_mul_of_one_le_right (two_zpow_pos k).le this)

end Arithmetic

/-! ## Counts -/

/-- The bits of canonical parts, cut off at infinity. -/
theorem parts_ofBits_min {m : Nat} {e : Int} (h : Canonical m e) (negative : Bool) :
    parts (Float.ofBits (UInt64.ofNat (min (encode false m e) infinityBits +
      if negative then twoTo 63 else 0))) =
        if e ≤ 971 then .finite negative m e else .infinite negative := by
  by_cases he : e ≤ 971
  · have hbits : encode false m e + (if negative then twoTo 63 else 0) = encode negative m e := by
      simp [encode]
    rw [if_pos he, min_eq_left (encode_le_infinityBits h he), hbits]
    exact parts_ofBits_encode h he negative
  · have hm := h.normal.resolve_right (by omega)
    have hmin : infinityBits ≤ encode false m e := by
      rw [twoTo_52] at hm
      unfold encode infinityBits
      rw [twoTo_52, if_neg Bool.false_ne_true]
      omega
    rw [if_neg he, min_eq_right hmin]
    cases negative <;> decide +kernel

/-- A rounded quotient is the whole part, or the next number when something is left. -/
theorem roundDiv_floor (n : Nat) {d : Nat} (hd : 0 < d) :
    roundDiv n d = n / d ∨ roundDiv n d = n / d + 1 ∧ n / d * d < n := by
  have hdiv := Nat.div_add_mod n d
  rw [Nat.mul_comm] at hdiv
  unfold roundDiv
  dsimp only
  by_cases h1 : 2 * (n % d) < d
  · exact .inl (if_pos h1)
  · rw [if_neg h1]
    by_cases h2 : d < 2 * (n % d)
    · exact .inr ⟨if_pos h2, by omega⟩
    · rw [if_neg h2]
      rcases Nat.mod_two_eq_zero_or_one (n / d) with h | h
      · exact .inl (by rw [h, Nat.add_zero])
      · exact .inr ⟨by rw [h], by omega⟩

/-- Rounding an unscaled quotient is faithful to what it stands for. -/
theorem faithful_roundDiv {n d : Nat} (hd : 0 < d) {e : Int}
    (hfull : twoTo 52 ≤ n / d ∨ e ≤ -1074) :
    Faithful ((n : ℚ) / d * 2 ^ e) (roundDiv n d * 2 ^ e) := by
  have hpos := two_zpow_pos e
  have hdq : (0 : ℚ) < d := by exact_mod_cast hd
  obtain ⟨hlow, hhigh⟩ := natCast_div_bounds n hd
  apply faithful_of_floor (q := n / d)
  · exact mul_le_mul_of_nonneg_right hlow hpos.le
  · exact mul_lt_mul_of_pos_right hhigh hpos
  · refine (roundDiv_floor n hd).imp id (And.imp id fun hleft => ?_)
    have : ((n / d : ℕ) : ℚ) < n / d := by
      rw [lt_div_iff₀ hdq]
      exact_mod_cast hleft
    exact mul_lt_mul_of_pos_right this hpos
  · exact hfull

/-- A rounded mantissa spells canonical parts, also where rounding up has carried into the
exponent. -/
theorem exists_canonical_encode {r : Nat} {e : Int} (hr : r ≤ twoTo 53) (he : -1074 ≤ e)
    (hfull : twoTo 52 ≤ r ∨ e = -1074) :
    ∃ m' e', Canonical m' e' ∧ (m' : ℚ) * 2 ^ e' = r * 2 ^ e ∧
      (e + 1074).toNat * twoTo 52 + r = encode false m' e' := by
  by_cases hlt : r < twoTo 53
  · refine ⟨r, e, ⟨hlt, he, hfull⟩, rfl, ?_⟩
    simp [encode]
  · have hmax : r = twoTo 53 := by omega
    refine ⟨twoTo 52, e + 1, ⟨by decide, by omega, .inl le_rfl⟩, ?_, ?_⟩
    · rw [hmax, twoTo_succ 52, zpow_add_one₀ (by norm_num), Nat.cast_mul, Nat.cast_ofNat]
      ring
    · rw [hmax, encode, twoTo_53, twoTo_52, if_neg Bool.false_ne_true]
      omega

/-- The number nearest to a positive quotient is positive. It is infinite when what the quotient is
rounded to is too large. -/
theorem exists_parts_nearest {num den : Nat} (hnum : 0 < num) (hden : 0 < den) :
    ∃ m e, Canonical m e ∧ Faithful ((num : ℚ) / den) (signedValue false m e) ∧
      parts (nearest false num den) = if e ≤ 971 then .finite false m e else .infinite false := by
  obtain ⟨hge, hlt, hnormal⟩ := unitExponent_spec hnum hden
  have hvalue := unscaled_div hden num (unitExponent num den)
  have hd := unscaled_pos hden num (unitExponent num den)
  unfold nearest nearestBits
  rw [if_neg hnum.ne']
  dsimp only
  generalize unitExponent num den = E at *
  generalize (unscaled num den E).1 = n at *
  generalize (unscaled num den E).2 = d at *
  generalize (num : ℚ) / den = v at *
  have hpos := two_zpow_pos E
  have hdq : (0 : ℚ) < d := by exact_mod_cast hd
  have hv : v = n / d * 2 ^ E := by rw [hvalue, div_mul_cancel₀ _ hpos.ne']
  have hfull : twoTo 52 ≤ n / d ∨ E = -1074 := by
    refine hnormal.imp (fun h => ?_) id
    rw [hv, zpow_add₀ (by norm_num), mul_comm, mul_le_mul_iff_left₀ hpos, le_div_iff₀ hdq] at h
    rw [Nat.le_div_iff_mul_le hd, ← Nat.cast_le (α := ℚ), Nat.cast_mul, twoTo_cast]
    exact h
  have hq53 : n / d < twoTo 53 := by
    rw [hv, zpow_add₀ (by norm_num), mul_comm (2 ^ E), mul_lt_mul_iff_left₀ hpos,
      div_lt_iff₀ hdq] at hlt
    rw [Nat.div_lt_iff_lt_mul hd, ← Nat.cast_lt (α := ℚ), Nat.cast_mul, twoTo_cast]
    exact hlt
  have hround := roundDiv_floor n hd
  have hfaithful := faithful_roundDiv hd (hfull.imp id fun h => h.le)
  obtain ⟨m, e, hc, hsame, hbits⟩ := exists_canonical_encode (r := roundDiv n d) (by omega) hge
    (hfull.imp (fun h => by omega) id)
  have hparts := parts_ofBits_min hc false
  rw [hbits]
  rw [← hv, ← hsame, ← signedValue_false] at hfaithful
  exact ⟨m, e, hc, hfaithful, hparts⟩

/-- The number nearest to a positive quotient rounds it. -/
theorem isRounding_nearest {num den : Nat} (hnum : 0 < num) (hden : 0 < den) :
    IsRounding ((num : ℚ) / den) (nearest false num den) := by
  obtain ⟨m, e, hc, hfaithful, hparts⟩ := exists_parts_nearest hnum hden
  by_cases he : e ≤ 971
  · rw [if_pos he] at hparts
    exact isRounding_of_finite hparts hfaithful
  · rw [if_neg he] at hparts
    exact isRounding_of_overflow hc (by omega) hparts hfaithful

theorem isRounding_ofNat (n : Nat) : IsRounding n (ofNat n) := by
  rcases Nat.eq_zero_or_pos n with rfl | hn
  · refine isRounding_of_finite (parts_nearest_zero false) ?_
    rw [signedValue_zero, Nat.cast_zero]
    exact .refl 0
  · have h := isRounding_nearest hn Nat.one_pos
    rwa [Nat.cast_one, div_one] at h

theorem within_ofNat {n k : Nat} (h : n ≤ 2 ^ k) (hk : k ≤ 971) : Within k (ofNat n) := by
  refine (isRounding_ofNat n).within (by omega) (by omega) ?_
  rw [abs_of_nonneg (Nat.cast_nonneg n), zpow_natCast]
  exact_mod_cast h

theorem within_of_le {x : Float} {n k : Nat} (hlow : -ofNat n ≤ x) (hhigh : x ≤ ofNat n)
    (h : n ≤ 2 ^ k) (hk : k ≤ 971) : Within k x := by
  obtain ⟨hfinite, hvalue⟩ := within_ofNat h hk
  have hneg := isFinite_neg hfinite
  have hx := isFinite_of_le_of_le hneg hfinite hlow hhigh
  have hlow' := (le_iff_value hneg hx).mp hlow
  have hhigh' := (le_iff_value hx hfinite).mp hhigh
  rw [value_neg hfinite] at hlow'
  exact ⟨hx, abs_le.mpr ⟨by linarith [le_abs_self (value (ofNat n))],
    hhigh'.trans ((le_abs_self _).trans hvalue)⟩⟩

theorem value_ofNat {n : Nat} (h : n < twoTo 53) : (ofNat n).isFinite ∧ value (ofNat n) = n :=
  (isRounding_ofNat n).exact (e := 0) h (by decide) (by decide) (by simp)

theorem IsRounding.natCast_le {r : ℚ} {x : Float} (h : IsRounding r x) (hx : x.isFinite) {k : Nat}
    (hk : k < twoTo 53) (hr : (k : ℚ) ≤ r) : (k : ℚ) ≤ value x := by
  obtain ⟨hfinite, hvalue⟩ := value_ofNat hk
  rw [← hvalue] at hr ⊢
  exact h.le_value hx hfinite hr

theorem IsRounding.le_natCast {r : ℚ} {x : Float} (h : IsRounding r x) (hx : x.isFinite) {k : Nat}
    (hk : k < twoTo 53) (hr : r ≤ k) : value x ≤ k := by
  obtain ⟨hfinite, hvalue⟩ := value_ofNat hk
  rw [← hvalue] at hr ⊢
  exact h.value_le hx hfinite hr

theorem value_ofNat_le {n k : Nat} (h : k ≤ n) (hk : k < twoTo 53) (hn : (ofNat n).isFinite) :
    (k : ℚ) ≤ value (ofNat n) :=
  (isRounding_ofNat n).natCast_le hn hk (by exact_mod_cast h)

/-- From `2^53` on a count is rounded to an even number. -/
theorem value_ofNat_large {n : Nat} (h : twoTo 53 ≤ n) (hn : (ofNat n).isFinite) :
    ∃ m k : ℕ, m < twoTo 53 ∧ k ≤ 970 ∧ value (ofNat n) = m * 2 ^ (k + 1) := by
  obtain ⟨p, hp, hpv⟩ := exists_value (m := twoTo 52) (e := 1) (by decide) (by decide) (by decide)
    false
  rw [signedValue_false, zpow_one] at hpv
  have hlarge : (twoTo 53 : ℚ) ≤ value (ofNat n) := by
    have htwo : (twoTo 53 : ℚ) = value p := by
      rw [hpv, twoTo_succ, Nat.cast_mul, mul_comm, Nat.cast_ofNat]
    rw [htwo]
    refine (isRounding_ofNat n).le_value hn hp ?_
    rw [← htwo]
    exact_mod_cast h
  obtain ⟨negative, m, e, hparts⟩ := isFinite_iff.mp hn
  obtain ⟨hc, he, -⟩ := encode_parts hparts
  have hpos : (0 : ℚ) < twoTo 53 := by exact_mod_cast twoTo_pos 53
  rw [value_of_parts hparts] at hlarge ⊢
  have hm : (m : ℚ) < twoTo 53 := by exact_mod_cast hc.lt
  cases negative with
  | true =>
    have hnonneg : (0 : ℚ) ≤ m * 2 ^ e := mul_nonneg (Nat.cast_nonneg _) (two_zpow_pos e).le
    rw [signedValue_true] at hlarge
    linarith
  | false =>
    rw [signedValue_false] at hlarge ⊢
    have he1 : 1 ≤ e := by
      by_contra hlt
      have hle : (2 : ℚ) ^ e ≤ 1 := by
        rw [← zpow_zero (2 : ℚ)]
        exact two_zpow_le (by omega)
      have := mul_le_of_le_one_right (Nat.cast_nonneg (α := ℚ) m) hle
      linarith
    refine ⟨m, (e - 1).toNat, hc.lt, by omega, ?_⟩
    rw [← zpow_natCast]
    congr 2
    omega

/-! ## Whole parts -/

/-- The least whole number above a quotient. -/
theorem natCast_ceil_bounds (n : Nat) {d : Nat} (hd : 0 < d) :
    (n : ℚ) / d ≤ ((n + (d - 1)) / d : ℕ) ∧ (((n + (d - 1)) / d : ℕ) : ℚ) < n / d + 1 := by
  have hdq : (0 : ℚ) < d := by exact_mod_cast hd
  have hceil := Nat.div_add_mod (n + (d - 1)) d
  have hmod := Nat.mod_lt (n + (d - 1)) hd
  have hlow : n ≤ (n + (d - 1)) / d * d := by rw [Nat.mul_comm]; omega
  have hhigh : (n + (d - 1)) / d * d < n + d := by rw [Nat.mul_comm]; omega
  constructor
  · rw [div_le_iff₀ hdq]
    exact_mod_cast hlow
  · rw [← sub_lt_iff_lt_add, lt_div_iff₀ hdq, sub_mul, one_mul, sub_lt_iff_lt_add]
    exact_mod_cast hhigh

/-- The whole part of a number that is not negative, and the least whole number above it. -/
theorem wholePart_spec {x : Float} (hx : x.isFinite) (h0 : 0 ≤ value x) :
    (wholePart x : ℚ) ≤ value x ∧ value x < wholePart x + 1 ∧
      value x ≤ wholeAbove x ∧ (wholeAbove x : ℚ) < value x + 1 := by
  obtain ⟨negative, m, e, hp⟩ := isFinite_iff.mp hx
  rw [value_of_parts hp] at h0 ⊢
  cases negative with
  | true =>
    have hm : m = 0 := by
      by_contra hne
      exact absurd (signedValue_neg (Nat.pos_of_ne_zero hne) e) (not_lt.mpr h0)
    have hwhole : wholePart x = 0 := by simp only [wholePart, hp]
    have habove : wholeAbove x = 0 := by simp only [wholeAbove, hp, hwhole]
    rw [hwhole, habove, hm, signedValue_zero]
    norm_num
  | false =>
    rw [signedValue_false]
    cases e with
    | ofNat k =>
      have hwhole : wholePart x = m * 2 ^ k := by simp only [wholePart, hp, Nat.shiftLeft_eq]
      have habove : wholeAbove x = m * 2 ^ k := by simp only [wholeAbove, hp, hwhole]
      rw [hwhole, habove, Int.ofNat_eq_natCast, zpow_natCast]
      push_cast
      exact ⟨le_rfl, lt_add_one _, le_rfl, lt_add_one _⟩
    | negSucc k =>
      have hpos : 0 < 2 ^ (k + 1) := Nat.two_pow_pos _
      have hcast : (2 : ℚ) ^ (k + 1) = (2 ^ (k + 1) : ℕ) := by push_cast; rfl
      have hwhole : wholePart x = m / 2 ^ (k + 1) := by
        simp only [wholePart, hp, Nat.shiftRight_eq_div_pow]
      have habove : wholeAbove x = (m + (2 ^ (k + 1) - 1)) / 2 ^ (k + 1) := by
        simp only [wholeAbove, hp, Nat.shiftRight_eq_div_pow, twoTo]
        rfl
      rw [hwhole, habove, zpow_negSucc, ← div_eq_mul_inv, hcast]
      obtain ⟨h1, h2⟩ := natCast_div_bounds m hpos
      obtain ⟨h3, h4⟩ := natCast_ceil_bounds m hpos
      exact ⟨h1, h2, h3, h4⟩

theorem wholePart_eq_floor {x : Float} (hx : x.isFinite) (h0 : 0 ≤ value x) :
    wholePart x = ⌊value x⌋₊ := by
  obtain ⟨hlow, hhigh, -, -⟩ := wholePart_spec hx h0
  exact ((Nat.floor_eq_iff h0).mpr ⟨hlow, hhigh⟩).symm

theorem wholeAbove_eq_ceil {x : Float} (hx : x.isFinite) (h0 : 0 ≤ value x) :
    wholeAbove x = ⌈value x⌉₊ := by
  obtain ⟨-, -, hhigh, hlow⟩ := wholePart_spec hx h0
  refine le_antisymm ?_ (Nat.ceil_le.mpr hhigh)
  have hlt : (wholeAbove x : ℚ) < (⌈value x⌉₊ + 1 : ℕ) := by
    have := Nat.le_ceil (value x)
    push_cast
    linarith
  exact Nat.lt_add_one_iff.mp (by exact_mod_cast hlt)

/-- A whole number is its own whole part from below and from above. -/
theorem wholePart_of_value {x : Float} (hx : x.isFinite) {k : Nat} (h : value x = k) :
    wholePart x = k ∧ wholeAbove x = k := by
  obtain ⟨h1, h2, h3, h4⟩ := wholePart_spec hx (by rw [h]; exact Nat.cast_nonneg k)
  rw [h] at h1 h2 h3 h4
  norm_cast at h1 h2 h3 h4
  omega

end LoginForest.Number
