/-
  Arithmetic keeps the order of its operands. Exact sums, differences and products are ordered as
  the operands are, and so are the nearest numbers (`value_add_le`, `value_sub_le`,
  `value_mul_le`). Equal exact results need an argument of their own, for a tie may go either way:
  the operands are then equal, or the result is a number. A number that is shrunk by a factor
  below one becomes less, however little the factor takes away (`IsNearest.lt_of_shrunk`), so that
  it does not exceed what it was itself rounded from (`IsNearest.le_of_shrunk`).
-/
import LoginForest.Proofs.Number.Sign

namespace LoginForest.Number

variable {x x' y y' : Float} {r r' : ℚ}

/-- A number other than zero is known from what it denotes. -/
theorem eq_of_value_eq (hx : x.isFinite) (hy : y.isFinite) (h : value x = value y)
    (h0 : value x ≠ 0) : x = y := by
  obtain ⟨n, m, e, hp⟩ := isFinite_iff.mp hx
  obtain ⟨n', m', e', hp'⟩ := isFinite_iff.mp hy
  have hc := (encode_parts hp).1
  have hc' := (encode_parts hp').1
  rw [value_of_parts hp] at h h0
  rw [value_of_parts hp'] at h
  have habs : (m : ℚ) * 2 ^ e = m' * 2 ^ e' := by
    rw [← abs_signedValue n, ← abs_signedValue n', h]
  have hlt := (magnitude_lt_iff hc hc').not.mp habs.not_lt
  have hgt := (magnitude_lt_iff hc' hc).not.mp habs.not_gt
  have hm : 0 < m := by
    apply Nat.pos_of_ne_zero
    rintro rfl
    exact h0 (signedValue_zero n e)
  obtain ⟨rfl, rfl⟩ : e = e' ∧ m = m' := by
    have hm' : 0 < m' := by
      apply Nat.pos_of_ne_zero
      rintro rfl
      exact h0 (h.trans (signedValue_zero n' e'))
    omega
  have hpos := signedValue_pos hm e
  have hneg := signedValue_neg hm e
  obtain rfl : n = n' := by
    cases n <;> cases n'
    · rfl
    · exact absurd (h ▸ hpos) hneg.not_gt
    · exact absurd (h ▸ hneg) hpos.not_gt
    · rfl
  exact eq_of_parts_eq hp hp'

/-! ## Order of results -/

/-- Nearest numbers are ordered as the exact results are. -/
theorem IsNearest.value_le_of_le (h : IsNearest r x) (h' : IsNearest r' x') (hx : x.isFinite)
    (hx' : x'.isFinite) (hle : r ≤ r')
    (hsame : r = r' → x = x' ∨ ∃ p : Float, p.isFinite ∧ r = value p) : value x ≤ value x' := by
  rcases hle.eq_or_lt with heq | hlt
  · rcases hsame heq with rfl | ⟨p, hp, hr⟩
    · exact le_rfl
    · exact (h.isRounding.value_eq hp hr).2.trans_le
        (h'.isRounding.value_eq hp (heq ▸ hr)).2.ge
  · exact h.value_le_of_lt h' hx hx' hlt

theorem value_add_le (hx : x.isFinite) (hy : y.isFinite) (hy' : y'.isFinite)
    (hsum : (x + y).isFinite) (hsum' : (x + y').isFinite) (h : value y ≤ value y') :
    value (x + y) ≤ value (x + y') := by
  refine (isNearest_add hx hy).value_le_of_le (isNearest_add hx hy') hsum hsum'
    (add_le_add_right h _) fun hsame => ?_
  by_cases h0 : value y = 0
  · exact .inr ⟨x, hx, by rw [h0, add_zero]⟩
  · exact .inl (by rw [eq_of_value_eq hy hy' (add_left_cancel hsame) h0])

theorem value_sub_le (hx : x.isFinite) (hy : y.isFinite) (hy' : y'.isFinite)
    (hrest : (x - y).isFinite) (hrest' : (x - y').isFinite) (h : value y ≤ value y') :
    value (x - y') ≤ value (x - y) := by
  refine (isNearest_sub hx hy').value_le_of_le (isNearest_sub hx hy) hrest' hrest
    (sub_le_sub_left h _) fun hsame => ?_
  have hsame' : value y' = value y := sub_right_injective hsame
  by_cases h0 : value y' = 0
  · exact .inr ⟨x, hx, by rw [h0, sub_zero]⟩
  · exact .inl (by rw [eq_of_value_eq hy' hy hsame' h0])

theorem value_mul_le (hx : x.isFinite) (hx' : x'.isFinite) (hy : y.isFinite) (hy' : y'.isFinite)
    (hproduct : (x * y).isFinite) (hproduct' : (x' * y').isFinite) (hx0 : 0 ≤ value x)
    (hy0 : 0 ≤ value y) (h : value x ≤ value x') (h' : value y ≤ value y') :
    value (x * y) ≤ value (x' * y') := by
  refine (isNearest_mul hx hy).value_le_of_le (isNearest_mul hx' hy') hproduct hproduct'
    (mul_le_mul h h' hy0 (hx0.trans h)) fun hsame => ?_
  by_cases h0 : value x * value y = 0
  · exact .inr ⟨ofNat 0, isFinite_zero, by rw [h0, value_zero]⟩
  · -- an equal product leaves no room for a larger factor
    left
    have hxpos : 0 < value x := hx0.lt_of_ne' (left_ne_zero_of_mul h0)
    have hypos : 0 < value y := hy0.lt_of_ne' (right_ne_zero_of_mul h0)
    have hvalue : value x = value x' := by
      refine h.eq_or_lt.resolve_right fun hlt => hsame.not_lt ?_
      exact mul_lt_mul hlt h' hypos (hx0.trans h)
    have hvalue' : value y = value y' := by
      rw [← hvalue] at hsame
      exact mul_left_cancel₀ hxpos.ne' hsame
    rw [eq_of_value_eq hx hx' hvalue hxpos.ne', eq_of_value_eq hy hy' hvalue' hypos.ne']

/-! ## Factors below one -/

/-- No number lies between one and the number before it. -/
theorem value_le_of_lt_one (hx : x.isFinite) (h0 : 0 ≤ value x) (h1 : value x < 1) :
    value x ≤ 1 - 2 ^ (-53 : Int) := by
  obtain ⟨n, m, e, hp⟩ := isFinite_iff.mp hx
  have hc := (encode_parts hp).1
  have hone : Canonical (twoTo 52) (-52) := ⟨by decide, by decide, .inl le_rfl⟩
  have hvalue : (twoTo 52 : ℚ) * 2 ^ (-52 : Int) = 1 := by
    rw [twoTo_cast, ← zpow_add₀ (by norm_num)]
    rfl
  have habs : value x = m * 2 ^ e := by
    rw [← abs_signedValue n m e, ← value_of_parts hp, abs_of_nonneg h0]
  rw [habs, ← hvalue, magnitude_lt_iff hc hone] at h1
  have he : e ≤ -53 := by
    rcases h1 with ⟨he, -⟩ | ⟨rfl, hm⟩
    · omega
    · exact absurd (hc.normal.resolve_right (by decide)) (by omega)
  have hm : (m : ℚ) ≤ twoTo 53 - 1 := by
    have := hc.lt
    rw [← Nat.cast_one, ← Nat.cast_sub (twoTo_pos 53)]
    exact_mod_cast Nat.le_sub_one_of_lt this
  calc value x = m * 2 ^ e := habs
    _ ≤ (twoTo 53 - 1) * 2 ^ (-53 : Int) :=
        mul_le_mul hm (two_zpow_le he) (two_zpow_pos e).le ((Nat.cast_nonneg m).trans hm)
    _ = 1 - 2 ^ (-53 : Int) := by
        rw [sub_mul, one_mul, twoTo_cast, ← zpow_add₀ (by norm_num)]
        rfl

/-- The number before a number that is not at the least exponent. -/
theorem exists_value_before {m : Nat} {e : Int} (hc : Canonical m e) (hlow : -1074 < e)
    (hhigh : e ≤ 971) : ∃ p : Float, p.isFinite ∧
      (value p = m * 2 ^ e - 2 ^ e ∧ twoTo 52 < m ∨
        value p = m * 2 ^ e - 2 ^ (e - 1) ∧ m = twoTo 52) := by
  rcases (hc.normal.resolve_right (by omega)).eq_or_lt with hm | hm
  · obtain ⟨p, hp, hvalue⟩ := exists_value (m := twoTo 53 - 1) (e := e - 1) (by decide) (by omega)
      (by omega) false
    refine ⟨p, hp, .inr ⟨?_, hm.symm⟩⟩
    rw [hvalue, ← hm, signedValue_false, Nat.cast_sub (twoTo_pos 53), twoTo_succ 52, sub_mul,
      Nat.cast_one, one_mul, Nat.cast_mul, Nat.cast_ofNat, zpow_sub_one₀ (by norm_num)]
    ring
  · obtain ⟨p, hp, hvalue⟩ := exists_value (m := m - 1) (e := e) (by have := hc.lt; omega)
      hlow.le hhigh false
    refine ⟨p, hp, .inl ⟨?_, hm⟩⟩
    rw [hvalue, signedValue_false, Nat.cast_sub (by omega), sub_mul, Nat.cast_one, one_mul]

/-- A number that is not at the least exponent becomes less when it is shrunk. -/
theorem IsNearest.lt_of_shrunk {m : Nat} {e : Int} (hx : parts x = .finite false m e)
    (he : -1074 < e) {f : ℚ} (h0 : 0 ≤ f) (hf : f ≤ 1 - 2 ^ (-53 : Int))
    (hy : IsNearest (f * value x) y) : value y < value x := by
  obtain ⟨hc, he', -⟩ := encode_parts hx
  have hpos := two_zpow_pos e
  have hfinite := isFinite_of_parts hx
  have hvalue : value x = m * 2 ^ e := value_of_parts hx
  have hx0 : 0 ≤ value x := by
    rw [hvalue]
    exact mul_nonneg (Nat.cast_nonneg m) hpos.le
  -- the factor takes away the 2^53rd part at least
  have hshrunk : f * value x ≤ value x - m * 2 ^ (e - 53) := by
    have hpart : value x * 2 ^ (-53 : Int) = m * 2 ^ (e - 53) := by
      rw [hvalue, mul_assoc, ← zpow_add₀ (by norm_num)]
      rfl
    have := mul_le_mul_of_nonneg_right hf hx0
    linarith
  have hle : f * value x ≤ value x := by
    have : (0 : ℚ) ≤ m * 2 ^ (e - 53) := mul_nonneg (Nat.cast_nonneg m) (two_zpow_pos _).le
    linarith
  obtain ⟨hyfinite, -, hyx⟩ := hy.isRounding.between isFinite_zero hfinite
    (by rw [value_zero]; exact mul_nonneg h0 hx0) hle
  obtain ⟨p, hp, hbefore⟩ := exists_value_before hc he he'
  rw [← hvalue] at hbefore
  refine lt_of_le_of_ne hyx fun hsame => ?_
  have hpx : value p < value x := by
    have := two_zpow_pos (e - 1)
    rcases hbefore with ⟨hbefore, -⟩ | ⟨hbefore, -⟩ <;> linarith
  have hpr : value p < f * value x := by
    by_contra hge
    have := hy.isRounding.value_le hyfinite hp (not_lt.mp hge)
    linarith
  have hhalf : (twoTo 52 : ℚ) * 2 ^ (e - 53) = 2 ^ (e - 1) := by
    rw [twoTo_cast, ← zpow_add₀ (by norm_num)]
    congr 1
    ring
  rcases hbefore with ⟨hbefore, hm⟩ | ⟨hbefore, rfl⟩
  · -- more than one half of the last place is taken away
    have hnear := hy.closest hyfinite p hp
    rw [hsame, abs_of_nonneg (sub_nonneg.mpr hle), abs_of_neg (sub_neg.mpr hpr)] at hnear
    have hm' : (twoTo 52 : ℚ) < m := by exact_mod_cast hm
    have hmore := mul_lt_mul_of_pos_right hm' (two_zpow_pos (e - 53))
    rw [hhalf, zpow_sub_one₀ (by norm_num)] at hmore
    linarith
  · rw [hhalf] at hshrunk
    linarith

/-- What a number denotes is a multiple of the least number. -/
theorem exists_value_eq (x : Float) : ∃ k : ℤ, value x = k * 2 ^ (-1074 : Int) := by
  obtain ⟨k, e, -, he, hvalue⟩ := onGrid_value x
  refine ⟨k * twoTo (e - -1074).toNat, ?_⟩
  rw [hvalue, two_zpow_split he, Int.cast_mul, Int.cast_natCast, mul_assoc]

/-- So are whole numbers. -/
theorem exists_natCast_eq (n : ℕ) : ∃ k : ℤ, (n : ℚ) = k * 2 ^ (-1074 : Int) := by
  refine ⟨n * twoTo (0 - -1074 : Int).toNat, ?_⟩
  rw [Int.cast_mul, Int.cast_natCast, Int.cast_natCast, mul_assoc,
    ← two_zpow_split (by decide : (-1074 : Int) ≤ 0), zpow_zero, mul_one]

/-- A rounded number that is shrunk does not exceed what it was rounded from. -/
theorem IsNearest.le_of_shrunk (hx : IsRounding r x) (hfinite : x.isFinite)
    (hr : ∃ k : ℤ, r = k * 2 ^ (-1074 : Int)) (hr0 : 0 ≤ r) {f : ℚ} (h0 : 0 ≤ f)
    (hf : f ≤ 1 - 2 ^ (-53 : Int)) (hy : IsNearest (f * value x) y) :
    y.isFinite ∧ 0 ≤ value y ∧ value y ≤ r := by
  have hx0 : 0 ≤ value x := by
    have := hx.le_value hfinite isFinite_zero (by rwa [value_zero])
    rwa [value_zero] at this
  have hf1 : f ≤ 1 := by
    have := two_zpow_pos (-53)
    linarith
  obtain ⟨hyfinite, hy0, hyx⟩ := hy.isRounding.between isFinite_zero hfinite
    (by rw [value_zero]; exact mul_nonneg h0 hx0) (mul_le_of_le_one_left hx0 hf1)
  rw [value_zero] at hy0
  refine ⟨hyfinite, hy0, ?_⟩
  by_contra hlt
  have hrx : r < value x := (not_le.mp hlt).trans_le hyx
  obtain ⟨n, m, e, hp⟩ := isFinite_iff.mp hfinite
  obtain ⟨hc, he, -⟩ := encode_parts hp
  have hvalue : value x = m * 2 ^ e := by
    rw [← abs_signedValue n m e, ← value_of_parts hp, abs_of_nonneg hx0]
  obtain rfl : n = false := by
    cases n with
    | false => rfl
    | true =>
      rw [value_of_parts hp, signedValue_true] at hrx
      have := mul_nonneg (Nat.cast_nonneg (α := ℚ) m) (two_zpow_pos e).le
      linarith
  rcases hc.ge.eq_or_lt with rfl | hlow
  · -- at the least exponent nothing is rounded
    obtain ⟨k, rfl⟩ := hr
    have hpos := two_zpow_pos (-1074)
    have hk0 : 0 ≤ k := by
      have : (0 : ℚ) ≤ k := nonneg_of_mul_nonneg_left hr0 hpos
      exact_mod_cast this
    obtain ⟨j, rfl⟩ := Int.eq_ofNat_of_zero_le hk0
    have hjm : j < m := by
      rw [hvalue] at hrx
      exact_mod_cast lt_of_mul_lt_mul_right hrx hpos.le
    have hexact := (hx.exact (m := j) (hjm.trans hc.lt) le_rfl (by decide) (by norm_cast)).2
    exact hrx.ne' hexact
  · have hshrunk := hy.lt_of_shrunk hp hlow h0 hf
    have := hx.value_le hfinite hyfinite (not_le.mp hlt).le
    linarith

end LoginForest.Number
