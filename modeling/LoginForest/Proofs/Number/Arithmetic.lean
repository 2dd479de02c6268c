/-
  The arithmetic of finite binary64 numbers rounds the exact result to a nearest number:
  `isNearest_add`, `isNearest_sub`, `isNearest_mul` and `isNearest_div`. A result is computed as
  a mantissa with residual bits, which `StandsFor` relates to the exact mantissa; shifting keeps
  the relation, and the last step rounds the mantissa up or down.
-/
import LoginForest.Proofs.Number.Rounding

namespace LoginForest.Number

open Float.Model (UnpackedFloat Format totalExponent)
open Float.Model.UnpackedFloat

/-! ## Mantissas with residual bits -/

/-- The value of a mantissa and its first residual bit, which is worth one half. -/
def firstBits (em : ExtendedMantissa) : ℚ := em.mantissa + if em.roundBit then 1 / 2 else 0

/-- A mantissa with residual bits stands for `v`: it is `v` cut off after the first residual bit,
and the last bit tells whether anything was cut off. -/
structure StandsFor (em : ExtendedMantissa) (v : ℚ) : Prop where
  low : firstBits em ≤ v
  high : v < firstBits em + 1 / 2
  sticky : em.stickyBit = true ↔ firstBits em < v

theorem standsFor_exact (m : Nat) : StandsFor (.ofMantissaAndAccuracy m .exact) m := by
  constructor <;> simp [ExtendedMantissa.ofMantissaAndAccuracy, firstBits]

theorem StandsFor.mantissa_le {em : ExtendedMantissa} {v : ℚ} (h : StandsFor em v) :
    (em.mantissa : ℚ) ≤ v := by
  have hlow := h.low
  rw [firstBits] at hlow
  split at hlow <;> linarith

theorem StandsFor.lt_succ {em : ExtendedMantissa} {v : ℚ} (h : StandsFor em v) :
    v < em.mantissa + 1 := by
  have hhigh := h.high
  rw [firstBits] at hhigh
  split at hhigh <;> linarith

/-- A residual bit is set just when something is left behind the mantissa. -/
theorem StandsFor.left_iff {em : ExtendedMantissa} {v : ℚ} (h : StandsFor em v) :
    (em.roundBit || em.stickyBit) = true ↔ (em.mantissa : ℚ) < v := by
  obtain ⟨m, r, s⟩ := em
  obtain ⟨hlow, -, hsticky⟩ := h
  cases r
  · simpa [firstBits] using hsticky
  · simp only [firstBits, if_true] at hlow
    simp only [Bool.true_or, true_iff]
    linarith

/-- The bit shifted out of the mantissa becomes the first residual bit. -/
theorem firstBits_shiftRightOne (em : ExtendedMantissa) :
    firstBits em.shiftRightOne = em.mantissa / 2 := by
  obtain ⟨m, r, s⟩ := em
  have hm : (m : ℚ) = 2 * (m / 2 : ℕ) + (m % 2 : ℕ) := by exact_mod_cast (Nat.div_add_mod m 2).symm
  rcases Nat.mod_two_eq_zero_or_one m with hbit | hbit <;>
    simp only [firstBits, ExtendedMantissa.shiftRightOne, hbit] at hm ⊢ <;> push_cast at hm <;>
    simp <;> linarith

theorem StandsFor.shiftRightOne {em : ExtendedMantissa} {v : ℚ} (h : StandsFor em v) :
    StandsFor em.shiftRightOne (v / 2) := by
  constructor <;> rw [firstBits_shiftRightOne]
  · linarith [h.mantissa_le]
  · linarith [h.lt_succ]
  · rw [div_lt_div_iff_of_pos_right two_pos]
    exact h.left_iff

theorem shiftRight_succ (em : ExtendedMantissa) (k : Nat) :
    em >>> (k + 1) = (em >>> k).shiftRightOne := rfl

theorem StandsFor.shiftRight {em : ExtendedMantissa} {v : ℚ} (h : StandsFor em v) (k : Nat) :
    StandsFor (em >>> k) (v / 2 ^ k) := by
  induction k with
  | zero =>
    rw [pow_zero, div_one]
    exact h
  | succ k ih =>
    rw [shiftRight_succ, pow_succ, ← div_div]
    exact ih.shiftRightOne

theorem mantissa_shiftRight (em : ExtendedMantissa) (k : Nat) :
    (em >>> k).mantissa = em.mantissa / 2 ^ k := by
  induction k with
  | zero => exact (Nat.div_one _).symm
  | succ k ih =>
    rw [shiftRight_succ, pow_succ, ← Nat.div_div_eq_div_mul, ← ih]
    rfl

/-- The rounded mantissa is the mantissa or the next one, whichever is nearer. -/
theorem StandsFor.rounded {em : ExtendedMantissa} {v : ℚ} (h : StandsFor em v) :
    em.roundedMantissa = em.mantissa ∧ v ≤ em.mantissa + 1 / 2 ∨
      em.roundedMantissa = em.mantissa + 1 ∧ em.mantissa + 1 / 2 ≤ v := by
  obtain ⟨m, r, s⟩ := em
  obtain ⟨hlow, hhigh, hsticky⟩ := h
  cases r <;> cases s <;>
    simp only [firstBits, if_true, Bool.false_eq_true, if_false, add_zero, false_iff, not_lt,
      true_iff] at hlow hhigh hsticky
  · exact .inl ⟨rfl, by linarith⟩
  · exact .inl ⟨rfl, by linarith⟩
  · -- a tie goes to the even neighbour
    rcases Nat.mod_two_eq_zero_or_one m with hbit | hbit
    · exact .inl ⟨congrArg (m + ·) hbit, hsticky⟩
    · exact .inr ⟨congrArg (m + ·) hbit, hlow⟩
  · exact .inr ⟨rfl, hlow⟩

/-! ## Rounding a mantissa and an exponent -/

theorem targetExponent_eq (m : Nat) (e : Int) :
    Format.binary64.targetExponent (totalExponent m e) = max (m.log2 + e - 52) (-1074) := by
  have hmin : Format.binary64.minExponent = -1074 := by decide
  have hbits : Format.binary64.mantissaBits = 53 := rfl
  rw [Format.targetExponent, hmin, hbits, totalExponent]
  congr 1
  push_cast
  ring

/-- A mantissa of at most 53 bits is not shifted. -/
theorem shiftToTargetExponent_of_lt {m : Nat} {e : Int} (hm : m < twoTo 53) (he : -1074 ≤ e) :
    shiftToTargetExponent .binary64 m e .exact = (.ofMantissaAndAccuracy m .exact, e) := by
  have hlog : m.log2 ≤ 52 := by
    rcases Nat.eq_zero_or_pos m with rfl | hpos
    · exact Nat.zero_le _
    · exact Nat.lt_succ_iff.mp ((Nat.log2_lt hpos.ne').mpr hm)
  have hk : (max ((m.log2 : Int) + e - 52) (-1074) - e).toNat = 0 := by omega
  rw [shiftToTargetExponent, targetExponent_eq, shiftToExponent, hk]
  simp only [Int.ofNat_zero, add_zero]
  rfl

/-- A mantissa that rounding has carried into the 54th bit is halved. -/
theorem shiftToTargetExponent_carry {e : Int} (he : -1074 ≤ e) :
    shiftToTargetExponent .binary64 (twoTo 53) e .exact =
      (.ofMantissaAndAccuracy (twoTo 52) .exact, e + 1) := by
  have hlog : (twoTo 53).log2 = 53 := by decide
  have hk : (max (((53 : ℕ) : Int) + e - 52) (-1074) - e).toNat = 1 := by omega
  rw [shiftToTargetExponent, targetExponent_eq, hlog, shiftToExponent, hk]
  rfl

/-- A mantissa at the exponent it is to be rounded at. It has at most 53 bits, and just 53 above
the least exponent. -/
structure Aligned (em : ExtendedMantissa) (t : Int) : Prop where
  lt : em.mantissa < twoTo 53
  ge : -1074 ≤ t
  full : twoTo 52 ≤ em.mantissa ∨ t = -1074

theorem mantissa_ofMantissaAndAccuracy (m : Nat) (acc : Accuracy) :
    (ExtendedMantissa.ofMantissaAndAccuracy m acc).mantissa = m := by
  cases acc with
  | exact => rfl
  | inexact o => cases o <;> rfl

/-- The first shift aligns a mantissa of at least 53 bits, or one with a small exponent. -/
theorem exists_aligned {m : Nat} {e : Int} {acc : Accuracy} {v : ℚ}
    (hv : StandsFor (.ofMantissaAndAccuracy m acc) v) (hfull : 52 ≤ m.log2 ∨ e ≤ -1074) :
    ∃ em t w, shiftToTargetExponent .binary64 m e acc = (em, t) ∧ Aligned em t ∧
      StandsFor em w ∧ v * 2 ^ e = w * 2 ^ t := by
  obtain ⟨k, t, ht, hkt⟩ : ∃ (k : ℕ) (t : Int), t = max ((m.log2 : Int) + e - 52) (-1074) ∧
      t - e = k := ⟨(max ((m.log2 : Int) + e - 52) (-1074) - e).toNat, _, rfl, by omega⟩
  have hmantissa : (ExtendedMantissa.ofMantissaAndAccuracy m acc >>> k).mantissa = m / 2 ^ k := by
    rw [mantissa_shiftRight, mantissa_ofMantissaAndAccuracy]
  refine ⟨ExtendedMantissa.ofMantissaAndAccuracy m acc >>> k, t, v / 2 ^ k, ?_, ⟨?_, ?_, ?_⟩,
    hv.shiftRight k, ?_⟩
  · rw [shiftToTargetExponent, targetExponent_eq, ← ht, shiftToExponent, hkt]
    simp only [Int.toNat_natCast]
    congr 1
    omega
  · rw [hmantissa]
    apply Nat.div_lt_of_lt_mul
    calc m < 2 ^ (m.log2 + 1) := Nat.lt_log2_self
      _ ≤ 2 ^ (k + 53) := Nat.pow_le_pow_right (by decide) (by omega)
      _ = 2 ^ k * twoTo 53 := by rw [pow_add]; rfl
  · omega
  · by_cases hmin : t = -1074
    · exact .inr hmin
    · left
      have hlog : m.log2 = 52 + k := by omega
      have hm : m ≠ 0 := by
        rintro rfl
        rw [Nat.log2_zero] at hlog
        omega
      rw [hmantissa, Nat.le_div_iff_mul_le (by positivity)]
      calc twoTo 52 * 2 ^ k = 2 ^ (52 + k) := by rw [pow_add]; rfl
        _ ≤ m := hlog ▸ Nat.log2_self_le hm
  · have hscale : (2 : ℚ) ^ t = 2 ^ k * 2 ^ e := by
      rw [← zpow_natCast, ← zpow_add₀ (by norm_num)]
      congr 1
      omega
    rw [hscale]
    field_simp

theorem Aligned.nearest {em : ExtendedMantissa} {t : Int} {w : ℚ} (h : Aligned em t)
    (hw : StandsFor em w) : NearestOnGrid (w * 2 ^ t) (em.roundedMantissa * 2 ^ t) := by
  have hpos := two_zpow_pos t
  have hlow := mul_le_mul_of_nonneg_right hw.mantissa_le hpos.le
  have hhigh := mul_lt_mul_of_pos_right hw.lt_succ hpos
  have hfull : twoTo 52 ≤ em.mantissa ∨ t ≤ -1074 := h.full.imp id fun h => h.le
  constructor
  · refine faithful_of_floor hlow hhigh (hw.rounded.imp (·.1) fun ⟨hr, hw⟩ => ⟨hr, ?_⟩) hfull
    exact mul_lt_mul_of_pos_right (by linarith) hpos
  · refine closest_of_floor hlow hhigh (hw.rounded.imp (·.1) (·.1)) ?_ hfull
    have hhalf : |(em.roundedMantissa : ℚ) - w| ≤ 1 / 2 := by
      have := hw.mantissa_le
      have := hw.lt_succ
      rw [abs_le]
      rcases hw.rounded with ⟨hr, hw⟩ | ⟨hr, hw⟩ <;> rw [hr] <;> push_cast <;> constructor <;>
        linarith
    rw [← sub_mul, abs_mul, abs_of_pos hpos]
    linarith [mul_le_mul_of_nonneg_right hhalf hpos.le]

/-- The second shift takes back a carry, and a rounded mantissa may be zero. -/
theorem roundWithAccuracy_eq {m : Nat} {e t : Int} {acc : Accuracy} {em : ExtendedMantissa}
    (hshift : shiftToTargetExponent .binary64 m e acc = (em, t)) (ht : -1074 ≤ t)
    (hle : em.roundedMantissa ≤ twoTo 53) (s : Sign) :
    roundWithAccuracy .binary64 s m e acc =
      if h : em.roundedMantissa = 0 then .zero s
      else if em.roundedMantissa < twoTo 53 then
        .finite s em.roundedMantissa t (Nat.pos_of_ne_zero h)
      else .finite s (twoTo 52) (t + 1) (by decide) := by
  rw [roundWithAccuracy, hshift]
  dsimp only
  generalize em.roundedMantissa = r at hle
  by_cases hr : r < twoTo 53
  · rw [shiftToTargetExponent_of_lt hr ht]
    by_cases h0 : r = 0
    · simp [h0, ExtendedMantissa.ofMantissaAndAccuracy]
    · simp [h0, hr, ExtendedMantissa.ofMantissaAndAccuracy]
  · have hmax : r = twoTo 53 := by omega
    rw [hmax, shiftToTargetExponent_carry ht]
    rfl

/-- Rounding a mantissa of at least 53 bits, or one with a small exponent. -/
theorem isNearest_roundWithAccuracy {negative : Bool} {m : Nat} {e : Int} {acc : Accuracy}
    {v r : ℚ} (hv : StandsFor (.ofMantissaAndAccuracy m acc) v)
    (hfull : 52 ≤ m.log2 ∨ e ≤ -1074) (hr : r = if negative then -(v * 2 ^ e) else v * 2 ^ e) :
    IsNearest r (packed (roundWithAccuracy .binary64 (signOf negative) m e acc)) := by
  obtain ⟨em, t, w, hshift, haligned, hw, hexact⟩ := exists_aligned hv hfull
  have hnearest := haligned.nearest hw
  have hsigned : ∀ (m' : ℕ) (e' : Int), (m' : ℚ) * 2 ^ e' = em.roundedMantissa * 2 ^ t →
      NearestOnGrid r (signedValue negative m' e') := by
    intro m' e' h
    rw [← h, ← hexact] at hnearest
    cases negative
    · simpa [hr, signedValue] using hnearest
    · simpa [hr, signedValue] using hnearest.neg
  obtain ⟨hlt, hlow, hfull'⟩ := haligned
  have hrange := hw.rounded
  rw [roundWithAccuracy_eq hshift hlow (by omega)]
  by_cases h0 : em.roundedMantissa = 0
  · rw [dif_pos h0]
    have := hsigned 0 0 (by simp [h0])
    rw [signedValue_zero] at this
    exact isNearest_packed_zero negative this
  · rw [dif_neg h0]
    by_cases hround : em.roundedMantissa < twoTo 53
    · rw [if_pos hround]
      have hcan : Canonical em.roundedMantissa t :=
        ⟨hround, hlow, hfull'.imp (fun h => by omega) id⟩
      exact isNearest_packed hcan _ (hsigned _ _ rfl)
    · rw [if_neg hround]
      have hmax : em.roundedMantissa = twoTo 53 := by omega
      have hcan : Canonical (twoTo 52) (t + 1) := ⟨by decide, by omega, .inl le_rfl⟩
      refine isNearest_packed hcan _ (hsigned _ _ ?_)
      rw [hmax, twoTo_succ 52, zpow_add_one₀ (by norm_num), Nat.cast_mul, Nat.cast_ofNat]
      ring

/-- Rounding any mantissa and exponent. -/
theorem isNearest_round (negative : Bool) {m : Nat} (hm : 0 < m) (e : Int) :
    IsNearest (signedValue negative m e)
      (packed (UnpackedFloat.round .binary64 (signOf negative) m e)) := by
  rw [UnpackedFloat.round, targetExponent_eq, decreaseExponent]
  generalize hk : (e - max ((m.log2 : Int) + e - 52) (-1074)).toNat = k
  have hshift : m <<< k = m * 2 ^ k := Nat.shiftLeft_eq m k
  have hlog : (m * 2 ^ k).log2 = m.log2 + k := by
    rw [Nat.log2_eq_iff (by positivity), pow_add, show m.log2 + k + 1 = m.log2 + 1 + k by ring,
      pow_add]
    exact ⟨Nat.mul_le_mul_right _ (Nat.log2_self_le hm.ne'),
      Nat.mul_lt_mul_of_pos_right Nat.lt_log2_self (by positivity)⟩
  dsimp only
  rw [hshift]
  refine isNearest_roundWithAccuracy (standsFor_exact _) ?_ ?_
  · rw [hlog]
    omega
  · have h : ((m * 2 ^ k : ℕ) : ℚ) * 2 ^ (e - (k : Int)) = m * 2 ^ e := by
      rw [zpow_sub₀ (by norm_num), zpow_natCast]
      push_cast
      field_simp
    rw [h, signedValue]

/-! ## Sums and differences -/

theorem cast_apply_signOf (negative : Bool) (k : ℤ) :
    ((signOf negative).apply k : ℚ) = if negative then -(k : ℚ) else k := by
  cases negative <;> simp [signOf, Sign.apply]

/-- A mantissa shifted to a smaller exponent denotes the same. -/
theorem apply_decreaseExponent (negative : Bool) (m : Nat) {e t : Int} (h : t ≤ e) :
    ((signOf negative).apply ((decreaseExponent m e t).1 : ℤ) : ℚ) * 2 ^ t =
      signedValue negative m e := by
  have hval : ((decreaseExponent m e t).1 : ℚ) * 2 ^ t = m * 2 ^ e := by
    rw [two_zpow_split h, decreaseExponent, Nat.shiftLeft_eq]
    push_cast
    rw [mul_assoc, twoTo_cast, zpow_natCast]
  rw [cast_apply_signOf, signedValue, ← hval]
  cases negative <;> simp

theorem isNearest_normalize (m : ℤ) (e : Int) :
    IsNearest ((m : ℚ) * 2 ^ e) (packed (UnpackedFloat.normalize .binary64 m e .positive)) := by
  unfold UnpackedFloat.normalize
  rcases lt_trichotomy m 0 with h | h | h
  · rw [compare_lt_iff_lt.mpr h]
    have hr := isNearest_round true (m := (-m).toNat) (by omega) e
    have hcast : (((-m).toNat : ℕ) : ℚ) = -m := by
      have : (((-m).toNat : ℕ) : ℤ) = -m := Int.toNat_of_nonneg (by omega)
      exact_mod_cast this
    rw [signedValue_true, hcast, neg_mul, neg_neg] at hr
    exact hr
  · rw [compare_eq_iff_eq.mpr h]
    rw [h, Int.cast_zero, zero_mul]
    exact isNearest_packed_zero false (.refl 0)
  · rw [compare_gt_iff_gt.mpr h]
    have hr := isNearest_round false (m := m.toNat) (by omega) e
    have hcast : ((m.toNat : ℕ) : ℚ) = m := by
      have : ((m.toNat : ℕ) : ℤ) = m := Int.toNat_of_nonneg (by omega)
      exact_mod_cast this
    rw [signedValue_false, hcast] at hr
    exact hr

theorem isNearest_unpacked {n : Bool} {m : Nat} {e : Int} (h : Canonical m e) (he : e ≤ 971) :
    IsNearest (signedValue n m e) (packed (Parts.finite n m e).unpacked) := by
  have hp := parts_packed_unpacked (n := n) h he
  rw [← value_of_parts hp]
  exact isNearest_value (isFinite_of_parts hp)

theorem isNearest_add_unpacked {n n' : Bool} {m m' : Nat} {e e' : Int} (h : Canonical m e)
    (he : e ≤ 971) (h' : Canonical m' e') (he' : e' ≤ 971) :
    IsNearest (signedValue n m e + signedValue n' m' e')
      (packed (UnpackedFloat.add .binary64 (Parts.finite n m e).unpacked
        (Parts.finite n' m' e').unpacked)) := by
  have hx := isNearest_unpacked (n := n) h he
  have hy := isNearest_unpacked (n := n') h' he'
  rcases Nat.eq_zero_or_pos m with rfl | hm <;> rcases Nat.eq_zero_or_pos m' with rfl | hm'
  · rw [signedValue_zero, signedValue_zero, add_zero, unpacked_zero, unpacked_zero,
      UnpackedFloat.add]
    split
    · exact isNearest_packed_zero n (.refl 0)
    · exact isNearest_packed_zero false (.refl 0)
  · rw [unpacked_of_pos hm'] at hy ⊢
    rwa [signedValue_zero, zero_add]
  · rw [unpacked_of_pos hm] at hx ⊢
    rwa [signedValue_zero, add_zero]
  · rw [unpacked_of_pos hm, unpacked_of_pos hm', UnpackedFloat.add,
      ← apply_decreaseExponent n m (min_le_left e e'),
      ← apply_decreaseExponent n' m' (min_le_right e e'), ← add_mul, ← Int.cast_add]
    exact isNearest_normalize _ _

variable {x y : Float}

theorem isNearest_add (hx : x.isFinite) (hy : y.isFinite) :
    IsNearest (value x + value y) (x + y) := by
  obtain ⟨n, m, e, hp⟩ := isFinite_iff.mp hx
  obtain ⟨n', m', e', hp'⟩ := isFinite_iff.mp hy
  obtain ⟨hc, he, -⟩ := encode_parts hp
  obtain ⟨hc', he', -⟩ := encode_parts hp'
  rw [add_eq_packed, hp, hp', value_of_parts hp, value_of_parts hp']
  exact isNearest_add_unpacked hc he hc' he'

theorem isRounding_add (hx : x.isFinite) (hy : y.isFinite) :
    IsRounding (value x + value y) (x + y) :=
  (isNearest_add hx hy).isRounding

theorem neg_signOf (n : Bool) : -signOf n = signOf (!n) := by cases n <;> rfl

theorem neg_unpacked_finite (n : Bool) (m : Nat) (e : Int) :
    (Parts.finite n m e).unpacked.neg = (Parts.finite (!n) m e).unpacked := by
  by_cases hm : 0 < m <;> simp [Parts.unpacked, hm, UnpackedFloat.neg, neg_signOf]

theorem signedValue_not (n : Bool) (m : Nat) (e : Int) :
    signedValue (!n) m e = -signedValue n m e := by
  cases n <;> simp [signedValue]

theorem parts_neg {n : Bool} {m : Nat} {e : Int} (h : parts x = .finite n m e) :
    parts (-x) = .finite (!n) m e := by
  obtain ⟨hc, he, -⟩ := encode_parts h
  rw [neg_eq_packed, h, neg_unpacked_finite]
  exact parts_packed_unpacked hc he

theorem isFinite_neg (hx : x.isFinite) : (-x).isFinite := by
  obtain ⟨n, m, e, hp⟩ := isFinite_iff.mp hx
  exact isFinite_of_parts (parts_neg hp)

theorem value_neg (hx : x.isFinite) : value (-x) = -value x := by
  obtain ⟨n, m, e, hp⟩ := isFinite_iff.mp hx
  rw [value_of_parts (parts_neg hp), value_of_parts hp, signedValue_not]

theorem sub_unpacked_finite {n n' : Bool} {m m' : Nat} {e e' : Int} :
    UnpackedFloat.sub .binary64 (Parts.finite n m e).unpacked (Parts.finite n' m' e').unpacked =
      UnpackedFloat.add .binary64 (Parts.finite n m e).unpacked
        (Parts.finite (!n') m' e').unpacked := by
  by_cases hm : 0 < m <;> by_cases hm' : 0 < m' <;>
    simp only [Parts.unpacked, hm, hm', dif_pos, dif_neg, not_false_eq_true, UnpackedFloat.sub,
      UnpackedFloat.add, neg_signOf]
  congr 1
  cases n' <;> simp [signOf, Sign.apply, sub_eq_add_neg]

theorem isNearest_sub (hx : x.isFinite) (hy : y.isFinite) :
    IsNearest (value x - value y) (x - y) := by
  obtain ⟨n, m, e, hp⟩ := isFinite_iff.mp hx
  obtain ⟨n', m', e', hp'⟩ := isFinite_iff.mp hy
  obtain ⟨hc, he, -⟩ := encode_parts hp
  obtain ⟨hc', he', -⟩ := encode_parts hp'
  rw [sub_eq_packed, hp, hp', value_of_parts hp, value_of_parts hp', sub_unpacked_finite,
    sub_eq_add_neg, ← signedValue_not]
  exact isNearest_add_unpacked hc he hc' he'

theorem isRounding_sub (hx : x.isFinite) (hy : y.isFinite) :
    IsRounding (value x - value y) (x - y) :=
  (isNearest_sub hx hy).isRounding

/-! ## Products and quotients -/

theorem mul_signOf (n n' : Bool) : signOf n * signOf n' = signOf (n ^^ n') := by
  cases n <;> cases n' <;> rfl

theorem div_signOf (n n' : Bool) : signOf n / signOf n' = signOf (n ^^ n') := by
  cases n <;> cases n' <;> rfl

theorem full_product {m m' : Nat} {e e' : Int} (h : Canonical m e) (h' : Canonical m' e')
    (hm : 0 < m) (hm' : 0 < m') : 52 ≤ (m * m').log2 ∨ e + e' ≤ -1074 := by
  have hlog : twoTo 52 ≤ m * m' → 52 ≤ (m * m').log2 :=
    (Nat.le_log2 (Nat.mul_pos hm hm').ne').mpr
  rcases h.normal with hn | hn
  · exact .inl (hlog (hn.trans (Nat.le_mul_of_pos_right m hm')))
  · rcases h'.normal with hn' | hn'
    · exact .inl (hlog (hn'.trans (Nat.le_mul_of_pos_left m' hm)))
    · exact .inr (by omega)

theorem isNearest_mul (hx : x.isFinite) (hy : y.isFinite) :
    IsNearest (value x * value y) (x * y) := by
  obtain ⟨n, m, e, hp⟩ := isFinite_iff.mp hx
  obtain ⟨n', m', e', hp'⟩ := isFinite_iff.mp hy
  have hc := (encode_parts hp).1
  have hc' := (encode_parts hp').1
  rw [mul_eq_packed, hp, hp', value_of_parts hp, value_of_parts hp']
  by_cases hm : 0 < m <;> by_cases hm' : 0 < m'
  · simp only [Parts.unpacked, dif_pos hm, dif_pos hm', UnpackedFloat.mul, mul_signOf]
    refine isNearest_roundWithAccuracy (standsFor_exact _) (full_product hc hc' hm hm') ?_
    rw [zpow_add₀ (by norm_num)]
    cases n <;> cases n' <;> simp [signedValue] <;> ring
  all_goals
    simp only [Parts.unpacked, hm, hm', dif_pos, dif_neg, not_false_eq_true, UnpackedFloat.mul,
      mul_signOf]
    have hzero : signedValue n m e * signedValue n' m' e' = 0 := by
      rcases (show m = 0 ∨ m' = 0 by omega) with rfl | rfl
      · rw [signedValue_zero, zero_mul]
      · rw [signedValue_zero, mul_zero]
    rw [hzero]
    exact isNearest_packed_zero _ (.refl 0)

theorem isRounding_mul (hx : x.isFinite) (hy : y.isFinite) :
    IsRounding (value x * value y) (x * y) :=
  (isNearest_mul hx hy).isRounding

/-- A quotient of natural numbers, with what is left of the division. -/
theorem standsFor_div (a : Nat) {b : Nat} (hb : 0 < b) :
    StandsFor (.ofMantissaAndAccuracy (a / b) (accuracyOfFraction (a % b) b)) ((a : ℚ) / b) := by
  have hbq : (0 : ℚ) < b := by exact_mod_cast hb
  have hsplit : (a : ℚ) / b = (a / b : ℕ) + ((a % b : ℕ) : ℚ) / b := by
    have : (a : ℚ) = b * (a / b : ℕ) + (a % b : ℕ) := by exact_mod_cast (Nat.div_add_mod a b).symm
    field_simp
    linarith
  have hmod : a % b < b := Nat.mod_lt a hb
  rw [hsplit]
  generalize a / b = q, a % b = l at hmod
  rw [accuracyOfFraction]
  by_cases h0 : l = 0
  · rw [if_pos h0, h0, Nat.cast_zero, zero_div, add_zero]
    exact standsFor_exact q
  · have hpos : (0 : ℚ) < l := by exact_mod_cast Nat.pos_of_ne_zero h0
    have hlt : (l : ℚ) / b < 1 := by
      rw [div_lt_one hbq]
      exact_mod_cast hmod
    have hleft : 0 < (l : ℚ) / b := div_pos hpos hbq
    rw [if_neg h0]
    -- what is left is compared with one half of the divisor
    rcases lt_trichotomy (2 * l) b with h | h | h
    · have hhalf : (l : ℚ) / b < 1 / 2 := by
        rw [div_lt_iff₀ hbq]
        have : (2 * l : ℚ) < b := by exact_mod_cast h
        linarith
      rw [compare_lt_iff_lt.mpr h]
      constructor <;> simp [ExtendedMantissa.ofMantissaAndAccuracy, firstBits] <;> linarith
    · have hhalf : (l : ℚ) / b = 1 / 2 := by
        rw [div_eq_iff hbq.ne']
        have : (2 * l : ℚ) = b := by exact_mod_cast h
        linarith
      rw [compare_eq_iff_eq.mpr h, hhalf]
      constructor <;> simp [ExtendedMantissa.ofMantissaAndAccuracy, firstBits]
    · have hhalf : 1 / 2 < (l : ℚ) / b := by
        rw [lt_div_iff₀ hbq]
        have : (b : ℚ) < 2 * l := by exact_mod_cast h
        linarith
      rw [compare_gt_iff_gt.mpr h]
      constructor <;> simp [ExtendedMantissa.ofMantissaAndAccuracy, firstBits] <;> linarith

theorem isNearest_div_unpacked {n n' : Bool} {m m' : Nat} {e e' : Int} (hm : 0 < m)
    (hm' : 0 < m') :
    IsNearest (signedValue n m e / signedValue n' m' e')
      (packed (UnpackedFloat.div .binary64 (Parts.finite n m e).unpacked
        (Parts.finite n' m' e').unpacked)) := by
  simp only [Parts.unpacked, dif_pos hm, dif_pos hm', UnpackedFloat.div, div_signOf, divCore]
  have hmin : Format.binary64.minExponent = -1074 := by decide
  have hbits : Format.binary64.mantissaBits = 53 := rfl
  rw [Format.targetExponent, hmin, hbits, totalExponent, totalExponent]
  generalize ht :
    min (e - e') (max ((m.log2 : Int) + 1 + e - (m'.log2 + 1 + e') - (53 : ℕ)) (-1074)) = t
  obtain ⟨k, hk⟩ : ∃ k : ℕ, e - e' - t = k := ⟨(e - e' - t).toNat, by omega⟩
  rw [hk, Int.toNat_natCast, Nat.shiftLeft_eq]
  refine isNearest_roundWithAccuracy (standsFor_div _ hm') ?_ ?_
  · by_cases hlow : t ≤ -1074
    · exact .inr hlow
    · -- the dividend is shifted far enough for a quotient of 53 bits
      left
      have hquot : 2 ^ 52 ≤ m * 2 ^ k / m' := by
        rw [Nat.le_div_iff_mul_le hm']
        calc 2 ^ 52 * m' ≤ 2 ^ 52 * 2 ^ (m'.log2 + 1) := by
              exact Nat.mul_le_mul_left _ Nat.lt_log2_self.le
          _ = 2 ^ (52 + (m'.log2 + 1)) := (pow_add ..).symm
          _ ≤ 2 ^ (m.log2 + k) := Nat.pow_le_pow_right (by decide) (by omega)
          _ = 2 ^ m.log2 * 2 ^ k := pow_add ..
          _ ≤ m * 2 ^ k := Nat.mul_le_mul_right _ (Nat.log2_self_le hm.ne')
      exact (Nat.le_log2 (by positivity)).mpr hquot
  · have hscale : ((m * 2 ^ k : ℕ) : ℚ) / m' * 2 ^ t = m * 2 ^ e / (m' * 2 ^ e') := by
      have he : e = t + k + e' := by omega
      have hm'q : (m' : ℚ) ≠ 0 := by exact_mod_cast hm'.ne'
      rw [he, zpow_add₀ (by norm_num), zpow_add₀ (by norm_num), zpow_natCast]
      have := two_zpow_pos e'
      push_cast
      field_simp
    rw [hscale]
    cases n <;> cases n' <;> simp [signedValue, neg_div, div_neg]

theorem isNearest_div (hx : x.isFinite) (hy : y.isFinite) (h0 : value y ≠ 0) :
    IsNearest (value x / value y) (x / y) := by
  obtain ⟨n, m, e, hp⟩ := isFinite_iff.mp hx
  obtain ⟨n', m', e', hp'⟩ := isFinite_iff.mp hy
  rw [value_of_parts hp'] at h0
  have hm' : 0 < m' := by
    apply Nat.pos_of_ne_zero
    rintro rfl
    exact h0 (signedValue_zero ..)
  rw [div_eq_packed, hp, hp', value_of_parts hp, value_of_parts hp']
  rcases Nat.eq_zero_or_pos m with rfl | hm
  · simp only [Parts.unpacked, dif_pos hm', UnpackedFloat.div, div_signOf, signedValue_zero,
      zero_div, lt_irrefl, dite_false]
    exact isNearest_packed_zero _ (.refl 0)
  · exact isNearest_div_unpacked hm hm'

theorem isRounding_div (hx : x.isFinite) (hy : y.isFinite) (h0 : value y ≠ 0) :
    IsRounding (value x / value y) (x / y) :=
  (isNearest_div hx hy h0).isRounding

end LoginForest.Number
