/-
  The number nearest to a quotient. Every quotient within half a unit in the last place of a
  number is rounded to it (`nearestBits_eq`): the unit of the quotient is the unit of the number,
  or half of it just below a power of two, where rounding carries into the exponent.
-/
import LoginForest.Number.Shortest
import LoginForest.Proofs.Number.Value

namespace LoginForest.Number

/-! ## Scaled quotients -/

theorem unscaled_pos {den : Nat} (hden : 0 < den) (num : Nat) (e : Int) :
    0 < (unscaled num den e).2 := by
  cases e with
  | ofNat k => rw [unscaled, Nat.shiftLeft_eq]; positivity
  | negSucc k => exact hden

theorem unscaled_div {den : Nat} (hden : 0 < den) (num : Nat) (e : Int) :
    ((unscaled num den e).1 : ℚ) / (unscaled num den e).2 = num / den / 2 ^ e := by
  have hq : (den : ℚ) ≠ 0 := by exact_mod_cast hden.ne'
  cases e with
  | ofNat k =>
    simp only [unscaled, Nat.shiftLeft_eq, Int.ofNat_eq_natCast, zpow_natCast]
    push_cast
    field_simp
  | negSucc k =>
    simp only [unscaled, Nat.shiftLeft_eq, zpow_negSucc]
    push_cast
    field_simp

/-! ## The unit in the last place -/

theorem two_pow_log2_le {n : Nat} (h : 0 < n) : (2 : ℚ) ^ (n.log2 : Int) ≤ n := by
  rw [zpow_natCast]
  exact_mod_cast Nat.log2_self_le h.ne'

theorem lt_two_pow_log2 (n : Nat) : (n : ℚ) < 2 ^ ((n.log2 : Int) + 1) := by
  have h : (n : ℚ) < 2 ^ (n.log2 + 1) := by exact_mod_cast Nat.lt_log2_self (n := n)
  exact_mod_cast h

/-- A quotient lies between the powers of two that the lengths of its parts tell. -/
theorem quotient_bounds {num den : Nat} (hnum : 0 < num) (hden : 0 < den) :
    (2 : ℚ) ^ ((num.log2 : Int) - den.log2 - 1) < num / den ∧
      (num : ℚ) / den < 2 ^ ((num.log2 : Int) - den.log2 + 1) := by
  have hq : (0 : ℚ) < den := by exact_mod_cast hden
  constructor
  · rw [lt_div_iff₀ hq]
    calc (2 : ℚ) ^ ((num.log2 : Int) - den.log2 - 1) * den
        < 2 ^ ((num.log2 : Int) - den.log2 - 1) * 2 ^ ((den.log2 : Int) + 1) :=
          mul_lt_mul_of_pos_left (lt_two_pow_log2 den) (two_zpow_pos _)
      _ = 2 ^ (num.log2 : Int) := by
          rw [← zpow_add₀ (by norm_num)]
          congr 1
          ring
      _ ≤ num := two_pow_log2_le hnum
  · rw [div_lt_iff₀ hq]
    calc (num : ℚ) < 2 ^ ((num.log2 : Int) + 1) := lt_two_pow_log2 num
      _ = 2 ^ ((num.log2 : Int) - den.log2 + 1) * 2 ^ (den.log2 : Int) := by
          rw [← zpow_add₀ (by norm_num)]
          congr 1
          ring
      _ ≤ 2 ^ ((num.log2 : Int) - den.log2 + 1) * den :=
          mul_le_mul_of_nonneg_left (two_pow_log2_le hden) (two_zpow_pos _).le

/-- The unit leaves 53 bits before the point, fewer only at the least exponent. -/
theorem unitExponent_spec {num den : Nat} (hnum : 0 < num) (hden : 0 < den) :
    -1074 ≤ unitExponent num den ∧ (num : ℚ) / den < 2 ^ (unitExponent num den + 53) ∧
      (2 ^ (unitExponent num den + 52) ≤ (num : ℚ) / den ∨ unitExponent num den = -1074) := by
  obtain ⟨hlow, hhigh⟩ := quotient_bounds hnum hden
  generalize hE : (num.log2 : Int) - den.log2 - 53 = E at *
  have hpos := two_zpow_pos E
  have hdpos : (0 : ℚ) < (unscaled num den E).2 := by exact_mod_cast unscaled_pos hden num E
  have hfloor : (unscaled num den E).1 / (unscaled num den E).2 < twoTo 53 ↔
      (num : ℚ) / den < 2 ^ (E + 53) := by
    rw [Nat.div_lt_iff_lt_mul (unscaled_pos hden num E)]
    have hcast : (unscaled num den E).1 < twoTo 53 * (unscaled num den E).2 ↔
        ((unscaled num den E).1 : ℚ) / (unscaled num den E).2 < 2 ^ (53 : Int) := by
      rw [div_lt_iff₀ hdpos, ← Nat.cast_lt (α := ℚ), Nat.cast_mul, twoTo_cast]
      rfl
    rw [hcast, unscaled_div hden, div_lt_iff₀ hpos, ← zpow_add₀ (by norm_num), add_comm]
  have hunit : unitExponent num den =
      max (if (num : ℚ) / den < 2 ^ (E + 53) then E else E + 1) (-1074) := by
    simp only [unitExponent, hE, hfloor]
  rw [hunit]
  split
  case isTrue hlt =>
    refine ⟨le_max_right _ _, hlt.trans_le (two_zpow_le ?_), ?_⟩
    · exact add_le_add_left (le_max_left _ _) 53
    · rcases le_total (-1074) E with h | h
      · rw [max_eq_left h]
        refine .inl (le_trans (two_zpow_le ?_) hlow.le)
        omega
      · exact .inr (max_eq_right h)
  case isFalse hge =>
    refine ⟨le_max_right _ _, hhigh.trans_le (two_zpow_le ?_), ?_⟩
    · have := le_max_left (E + 1) (-1074)
      omega
    · rcases le_total (-1074) (E + 1) with h | h
      · rw [max_eq_left h, add_assoc, show (1 : Int) + 52 = 53 by decide]
        exact .inl (not_lt.mp hge)
      · exact .inr (max_eq_right h)

/-! ## Rounding within half a unit -/

/-- A quotient within half of a whole number is rounded to it, at a half if it is even. -/
theorem roundDiv_eq {n d k : Nat} (hd : 0 < d) (hlow : 2 * (k * d) ≤ 2 * n + d)
    (hhigh : 2 * n ≤ 2 * (k * d) + d)
    (htie : k % 2 = 0 ∨ 2 * (k * d) < 2 * n + d ∧ 2 * n < 2 * (k * d) + d) :
    roundDiv n d = k := by
  obtain ⟨hlow', hhigh'⟩ := roundDiv_near n hd
  have hdiv := Nat.div_add_mod n d
  have hmod := Nat.mod_lt n hd
  rw [Nat.mul_comm] at hdiv
  unfold roundDiv
  dsimp only
  -- the whole part is the number, or the one before it
  have hq : k = n / d ∨ k = n / d + 1 := by
    have h1 : n / d ≤ k := by
      by_contra hlt
      have : (k + 1) * d ≤ n / d * d := Nat.mul_le_mul_right d (by omega)
      rw [Nat.add_mul] at this
      omega
    have h2 : k ≤ n / d + 1 := by
      by_contra hlt
      have : (n / d + 2) * d ≤ k * d := Nat.mul_le_mul_right d (by omega)
      rw [Nat.add_mul] at this
      omega
    omega
  rcases hq with hq | hq
  · have hkd : k * d = n / d * d := by rw [hq]
    by_cases h1 : 2 * (n % d) < d
    · rw [if_pos h1, hq]
    · rw [if_neg h1, if_neg (by omega), ← hq]
      omega
  · have hkd : k * d = n / d * d + d := by rw [hq, Nat.add_mul, Nat.one_mul]
    rw [if_neg (by omega)]
    by_cases h2 : d < 2 * (n % d)
    · rw [if_pos h2, hq]
    · rw [if_neg h2]
      omega

/-- `w` is at most a half away from `k`, and less if `k` is odd. -/
structure Near (k : Nat) (w : ℚ) : Prop where
  low : (k : ℚ) - 1 / 2 ≤ w
  high : w ≤ k + 1 / 2
  tie : k % 2 = 0 ∨ (k : ℚ) - 1 / 2 < w ∧ w < k + 1 / 2

theorem Near.roundDiv {n d k : Nat} (hd : 0 < d) (h : Near k ((n : ℚ) / d)) :
    roundDiv n d = k := by
  obtain ⟨hlow, hhigh, htie⟩ := h
  have hq : (0 : ℚ) < d := by exact_mod_cast hd
  rw [le_div_iff₀ hq] at hlow
  rw [div_le_iff₀ hq] at hhigh
  rw [lt_div_iff₀ hq, div_lt_iff₀ hq] at htie
  apply roundDiv_eq hd
  · have : (2 * (k * d) : ℚ) ≤ 2 * n + d := by linarith
    exact_mod_cast this
  · have : (2 * n : ℚ) ≤ 2 * (k * d) + d := by linarith
    exact_mod_cast this
  · refine htie.imp id fun ⟨h1, h2⟩ => ⟨?_, ?_⟩
    · have : (2 * (k * d) : ℚ) < 2 * n + d := by linarith
      exact_mod_cast this
    · have : (2 * n : ℚ) < 2 * (k * d) + d := by linarith
      exact_mod_cast this

/-- The rationals that round to `m · 2^e`. -/
structure RoundsTo (m : Nat) (e : Int) (v : ℚ) : Prop where
  low : (interval m e).low * 2 ^ (e - 2) ≤ v
  high : v ≤ (interval m e).high * 2 ^ (e - 2)
  inner : (interval m e).closed = false →
    (interval m e).low * 2 ^ (e - 2) < v ∧ v < (interval m e).high * 2 ^ (e - 2)

theorem two_zpow_sub_two (e : Int) : (2 : ℚ) ^ (e - 2) = 2 ^ e / 4 := by
  rw [zpow_sub₀ (by norm_num)]
  norm_num

theorem low_interval (m : Nat) (e : Int) :
    (4 * m - 2 : ℚ) ≤ (interval m e).low ∧
      (m = twoTo 52 ∧ -1074 < e → (4 * m - 1 : ℚ) ≤ (interval m e).low) := by
  have hnat : 4 * m ≤ (interval m e).low + 2 ∧
      (m = twoTo 52 ∧ -1074 < e → 4 * m ≤ (interval m e).low + 1) := by
    unfold interval
    dsimp only
    split <;> omega
  refine ⟨?_, fun h => ?_⟩
  · have : (4 * m : ℚ) ≤ (interval m e).low + 2 := by exact_mod_cast hnat.1
    linarith
  · have : (4 * m : ℚ) ≤ (interval m e).low + 1 := by exact_mod_cast hnat.2 h
    linarith

section Interval

variable {m : Nat} {e : Int} {v : ℚ}

theorem low_le_iff {a : ℚ} : a * 2 ^ (e - 2) ≤ v ↔ a / 4 ≤ v / 2 ^ e := by
  rw [two_zpow_sub_two, le_div_iff₀ (two_zpow_pos e)]
  ring_nf

theorem le_high_iff {a : ℚ} : v ≤ a * 2 ^ (e - 2) ↔ v / 2 ^ e ≤ a / 4 := by
  rw [two_zpow_sub_two, div_le_iff₀ (two_zpow_pos e)]
  ring_nf

theorem cast_high (m : Nat) (e : Int) : ((interval m e).high : ℚ) / 4 = m + 1 / 2 := by
  simp only [interval]
  push_cast
  ring

/-- Within the interval the mantissa is at most a half away. -/
theorem RoundsTo.near (h : RoundsTo m e v) : Near m (v / 2 ^ e) := by
  have hlow := (low_interval m e).1
  have h1 := low_le_iff.mp h.low
  have h2 := le_high_iff.mp h.high
  rw [cast_high] at h2
  refine ⟨by linarith, h2, ?_⟩
  by_cases heven : m % 2 = 0
  · exact .inl heven
  · obtain ⟨h3, h4⟩ := h.inner (by simp [interval, heven])
    rw [← not_le, le_high_iff, not_le] at h3
    rw [← not_le, low_le_iff, not_le, cast_high] at h4
    exact .inr ⟨by linarith, h4⟩

theorem RoundsTo.pos (h : RoundsTo m e v) (hm : 0 < m) : 0 < v := by
  have hlow := h.near.low
  have hm' : (1 : ℚ) ≤ m := by exact_mod_cast hm
  have hw : 0 < v / 2 ^ e := by linarith
  have := mul_pos hw (two_zpow_pos e)
  rwa [div_mul_cancel₀ _ (two_zpow_pos e).ne'] at this

/-- The unit of a quotient in the interval is that of the number. It is smaller just below a
power of two. -/
theorem unitExponent_of_roundsTo (hc : Canonical m e) {num den : Nat}
    (hnum : 0 < num) (hden : 0 < den) (h : RoundsTo m e ((num : ℚ) / den)) :
    unitExponent num den = e ∨ unitExponent num den = e - 1 ∧ m = twoTo 52 ∧
      (num : ℚ) / den < m * 2 ^ e := by
  obtain ⟨hge, hlt, hnormal⟩ := unitExponent_spec hnum hden
  obtain ⟨hlow, hhigh, -⟩ := h.near
  generalize (num : ℚ) / den = w at *
  generalize unitExponent num den = E at *
  have hpos := two_zpow_pos e
  rw [le_div_iff₀ hpos] at hlow
  rw [div_le_iff₀ hpos] at hhigh
  have hm53 : (m : ℚ) + 1 ≤ 2 ^ (53 : Int) := by
    have : ((m + 1 : ℕ) : ℚ) ≤ twoTo 53 := Nat.cast_le.mpr hc.lt
    rwa [twoTo_cast, Nat.cast_add_one] at this
  have hE : E ≤ e := by
    by_contra hgt
    have hbig := hnormal.resolve_right (by have := hc.ge; omega)
    have : (2 : ℚ) ^ (53 : Int) * 2 ^ e ≤ w := by
      rw [← zpow_add₀ (by norm_num)]
      exact (two_zpow_le (by omega)).trans hbig
    nlinarith
  rcases hE.eq_or_lt with heq | hlt'
  · exact .inl heq
  right
  have hm52 : twoTo 52 ≤ m := hc.normal.resolve_right (by omega)
  have hpow : w < 2 ^ (52 : Int) * 2 ^ e := by
    rw [← zpow_add₀ (by norm_num)]
    exact hlt.trans_le (two_zpow_le (by omega))
  have hm : m = twoTo 52 := by
    by_contra hne
    have h1 : ((twoTo 52 + 1 : ℕ) : ℚ) ≤ m := Nat.cast_le.mpr (by omega)
    have h2 : (2 : ℚ) ^ (52 : Int) + 1 ≤ m := by
      rwa [Nat.cast_add_one, twoTo_cast] at h1
    nlinarith
  have hcast : (m : ℚ) = 2 ^ (52 : Int) := by rw [hm, twoTo_cast]; rfl
  refine ⟨?_, hm, hcast ▸ hpow⟩
  by_contra hne
  -- two units below, the quotient would be too small
  have hsmall : w < 2 ^ (52 : Int) * 2 ^ e / 2 := by
    have : (2 : ℚ) ^ (52 : Int) * 2 ^ e / 2 = 2 ^ (52 + e - 1) := by
      rw [zpow_sub₀ (by norm_num), zpow_add₀ (by norm_num), zpow_one]
    rw [this]
    exact hlt.trans_le (two_zpow_le (by omega))
  rw [hcast] at hlow
  have : (2 : ℚ) ≤ 2 ^ (52 : Int) := by norm_num
  nlinarith

/-- Just below a power of two the nearest half unit is twice the mantissa. -/
theorem RoundsTo.near_half (h : RoundsTo m e v) (hm : m = twoTo 52) (he : -1074 < e)
    (hlt : v < m * 2 ^ e) : Near (2 * m) (v / 2 ^ (e - 1)) := by
  have hlow := (low_interval m e).2 ⟨hm, he⟩
  have h1 := low_le_iff.mp h.low
  have hscale : v / 2 ^ (e - 1) = 2 * (v / 2 ^ e) := by
    rw [zpow_sub_one₀ (by norm_num)]
    have := two_zpow_pos e
    field_simp
  rw [← div_lt_iff₀ (two_zpow_pos e)] at hlt
  rw [hscale]
  refine ⟨?_, ?_, .inl (by omega)⟩
  · push_cast
    linarith
  · push_cast
    linarith

theorem encode_le_infinityBits (h : Canonical m e) (he : e ≤ 971) :
    encode false m e ≤ infinityBits := by
  have hlt := h.lt
  have hge := h.ge
  rw [twoTo_53] at hlt
  unfold encode infinityBits
  rw [twoTo_52, if_neg Bool.false_ne_true]
  omega

/-- A quotient in the interval of a number is rounded to the number. -/
theorem nearestBits_eq (hc : Canonical m e) (he : e ≤ 971) {num den : Nat}
    (hnum : 0 < num) (hden : 0 < den) (h : RoundsTo m e ((num : ℚ) / den)) :
    nearestBits num den = encode false m e := by
  have hd : ∀ E, 0 < (unscaled num den E).2 := unscaled_pos hden num
  have hbits : ((unitExponent num den + 1074).toNat * twoTo 52 +
      roundDiv (unscaled num den (unitExponent num den)).1
        (unscaled num den (unitExponent num den)).2) = encode false m e := by
    rcases unitExponent_of_roundsTo hc hnum hden h with hE | ⟨hE, hm52, hlt⟩
    · rw [hE, Near.roundDiv (hd e) (by rw [unscaled_div hden]; exact h.near)]
      unfold encode
      rw [if_neg Bool.false_ne_true, Nat.add_zero]
    · have hge := (unitExponent_spec hnum hden).1
      have he' : -1074 < e := by omega
      rw [hE, Near.roundDiv (hd (e - 1))
        (by rw [unscaled_div hden]; exact h.near_half hm52 he' hlt)]
      unfold encode
      rw [hm52, twoTo_52, if_neg Bool.false_ne_true]
      omega
  unfold nearestBits
  rw [if_neg hnum.ne']
  dsimp only
  rw [hbits, min_eq_left (encode_le_infinityBits hc he)]

theorem parts_nearest (hc : Canonical m e) (he : e ≤ 971) {num den : Nat}
    (hnum : 0 < num) (hden : 0 < den) (h : RoundsTo m e ((num : ℚ) / den)) (negative : Bool) :
    parts (nearest negative num den) = .finite negative m e := by
  have hbits : nearestBits num den + (if negative then twoTo 63 else 0) = encode negative m e := by
    rw [nearestBits_eq hc he hnum hden h]
    simp [encode]
  unfold nearest
  rw [hbits]
  exact parts_ofBits_encode hc he negative

theorem parts_nearest_zero (negative : Bool) :
    parts (nearest negative 0 1) = .finite negative 0 (-1074) := by
  cases negative <;> decide +kernel

end Interval

end LoginForest.Number
