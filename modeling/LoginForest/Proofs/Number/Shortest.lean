/-
  The shortest decimal lies in the interval of its number (`roundsTo_shortest`). A multiple that
  a grid offers is one that lies there; and the last grid that is tried is so fine, by the bound
  `ten_pow_le` on powers of ten, that it has a multiple just above the number.
-/
import LoginForest.Proofs.Number.Nearest

namespace LoginForest.Number

/-- What a decimal denotes. -/
def Decimal.value (d : Decimal) : ℚ := d.coefficient * 10 ^ d.exponent

theorem ten_zpow_pos (p : Int) : (0 : ℚ) < 10 ^ p := zpow_pos (by norm_num) p

theorem tenTo_cast (n : Nat) : (tenTo n : ℚ) = 10 ^ (n : Int) := by
  rw [zpow_natCast]
  exact Nat.cast_pow 10 n

theorem zpow_toNat_div {b : ℚ} (hb : 0 < b) (e : Int) :
    b ^ (e.toNat : Int) / b ^ ((-e).toNat : Int) = b ^ e := by
  rw [← zpow_sub₀ hb.ne']
  congr 1
  omega

/-! ## Multiples that a grid offers -/

theorem scale_pos (e p : Int) : 0 < (scale e p).1 ∧ 0 < (scale e p).2 :=
  ⟨Nat.mul_pos (twoTo_pos _) (tenTo_pos _), Nat.mul_pos (twoTo_pos _) (tenTo_pos _)⟩

theorem scale_div (e p : Int) : ((scale e p).1 : ℚ) / (scale e p).2 = 2 ^ (e - 2) / 10 ^ p := by
  have h2 := zpow_toNat_div (b := 2) (by norm_num) (e - 2)
  have h10 := zpow_toNat_div (b := 10) (by norm_num) p
  rw [neg_sub] at h2
  simp only [scale]
  push_cast
  rw [twoTo_cast, twoTo_cast, tenTo_cast, tenTo_cast, ← h2, ← h10]
  have h := ten_zpow_pos p.toNat
  have h' := ten_zpow_pos (-p).toNat
  have := two_zpow_pos (2 - e).toNat
  field_simp

theorem scale_eq (e p : Int) :
    ((scale e p).1 : ℚ) * 10 ^ p = 2 ^ (e - 2) * (scale e p).2 := by
  have hd : ((scale e p).2 : ℚ) ≠ 0 := by exact_mod_cast (scale_pos e p).2.ne'
  exact (div_eq_div_iff hd (ten_zpow_pos p).ne').mp (scale_div e p)

section Grid

variable {m : Nat} {e p : Int} {k : Nat}

/-- Bounds in units of the grid are bounds on what the multiple denotes. -/
theorem mul_scale_le_iff (a k : Nat) :
    a * (scale e p).1 ≤ k * (scale e p).2 ↔ (a : ℚ) * 2 ^ (e - 2) ≤ k * 10 ^ p := by
  have hd : (0 : ℚ) < (scale e p).2 := by exact_mod_cast (scale_pos e p).2
  rw [← Nat.cast_le (α := ℚ), Nat.cast_mul, Nat.cast_mul, ← mul_le_mul_iff_left₀ (ten_zpow_pos p),
    mul_assoc, scale_eq, ← mul_le_mul_iff_left₀ hd (b := (a : ℚ) * 2 ^ (e - 2))]
  ring_nf

theorem le_mul_scale_iff (a k : Nat) :
    k * (scale e p).2 ≤ a * (scale e p).1 ↔ (k : ℚ) * 10 ^ p ≤ a * 2 ^ (e - 2) := by
  have hd : (0 : ℚ) < (scale e p).2 := by exact_mod_cast (scale_pos e p).2
  rw [← Nat.cast_le (α := ℚ), Nat.cast_mul, Nat.cast_mul, ← mul_le_mul_iff_left₀ (ten_zpow_pos p),
    mul_assoc (a : ℚ), scale_eq, ← mul_le_mul_iff_left₀ hd (c := (a : ℚ) * 2 ^ (e - 2))]
  ring_nf

theorem mul_scale_lt_iff (a k : Nat) :
    a * (scale e p).1 < k * (scale e p).2 ↔ (a : ℚ) * 2 ^ (e - 2) < k * 10 ^ p := by
  rw [← not_le, ← not_le, le_mul_scale_iff]

theorem lt_mul_scale_iff (a k : Nat) :
    k * (scale e p).2 < a * (scale e p).1 ↔ (k : ℚ) * 10 ^ p < a * 2 ^ (e - 2) := by
  rw [← not_le, ← not_le, mul_scale_le_iff]

theorem holds_iff : (interval m e).holds (scale e p).1 (scale e p).2 k = true ↔
    RoundsTo m e (k * 10 ^ p) := by
  unfold Interval.holds
  by_cases hclosed : (interval m e).closed = true
  · rw [if_pos hclosed, Bool.and_eq_true, decide_eq_true_eq, decide_eq_true_eq,
      mul_scale_le_iff, le_mul_scale_iff]
    constructor
    · rintro ⟨h1, h2⟩
      exact ⟨h1, h2, fun h => by rw [hclosed] at h; cases h⟩
    · rintro ⟨h1, h2, -⟩
      exact ⟨h1, h2⟩
  · rw [if_neg hclosed, Bool.and_eq_true, decide_eq_true_eq, decide_eq_true_eq,
      mul_scale_lt_iff, lt_mul_scale_iff]
    constructor
    · rintro ⟨h1, h2⟩
      exact ⟨h1.le, h2.le, fun _ => ⟨h1, h2⟩⟩
    · rintro ⟨-, -, h⟩
      exact h (Bool.eq_false_iff.mpr hclosed)

end Grid

theorem holds_of_nearestMultiple? {i : Interval} {tie : Tie} {num den k : Nat}
    (h : i.nearestMultiple? tie num den = some k) : i.holds num den k = true := by
  unfold Interval.nearestMultiple? at h
  dsimp only at h
  generalize hfloor : i.mid * num / den = q at h
  cases h0 : i.holds num den q <;> cases h1 : i.holds num den (q + 1) <;> rw [h0, h1] at h
  · cases h
  · cases h; exact h1
  · cases h; exact h0
  · dsimp only at h
    have hk : k = q ∨ k = q + 1 := by
      split at h
      · exact .inl (Option.some.inj h).symm
      · split at h
        · exact .inr (Option.some.inj h).symm
        · cases tie
          · exact .inr (Option.some.inj h).symm
          · have := Option.some.inj h
            omega
    rcases hk with rfl | rfl
    · exact h0
    · exact h1

theorem nearestMultiple?_ne_none {i : Interval} {tie : Tie} {num den : Nat}
    (h : i.holds num den (i.mid * num / den + 1) = true) :
    i.nearestMultiple? tie num den ≠ none := by
  unfold Interval.nearestMultiple?
  dsimp only
  cases h0 : i.holds num den (i.mid * num / den) <;> rw [h]
  · exact Option.some_ne_none _
  · dsimp only
    split
    · exact Option.some_ne_none _
    · split
      · exact Option.some_ne_none _
      · cases tie <;> exact Option.some_ne_none _

/-! ## Fine grids -/

/-- A grid narrower than half the unit has a multiple just above the number. -/
theorem nearestMultiple?_of_fine {m : Nat} {e p : Int} (tie : Tie)
    (h : (10 : ℚ) ^ p < 2 ^ (e - 1)) :
    (interval m e).nearestMultiple? tie (scale e p).1 (scale e p).2 ≠ none := by
  apply nearestMultiple?_ne_none
  rw [holds_iff]
  generalize hq : (interval m e).mid * (scale e p).1 / (scale e p).2 = q
  have hd := (scale_pos e p).2
  have hfloor : q * (scale e p).2 ≤ (interval m e).mid * (scale e p).1 := by
    rw [← hq]
    exact Nat.div_mul_le_self _ _
  have hceil : (interval m e).mid * (scale e p).1 < (q + 1) * (scale e p).2 := by
    rw [← hq, Nat.add_mul, Nat.one_mul]
    exact Nat.lt_div_mul_add hd
  rw [le_mul_scale_iff] at hfloor
  rw [mul_scale_lt_iff] at hceil
  have hmid : ((interval m e).mid : ℚ) * 2 ^ (e - 2) = m * 2 ^ e := by
    rw [two_zpow_sub_two]
    simp only [interval]
    push_cast
    ring
  have hhigh : ((interval m e).high : ℚ) * 2 ^ (e - 2) = m * 2 ^ e + 2 ^ (e - 1) := by
    rw [two_zpow_sub_two, zpow_sub_one₀ (by norm_num)]
    simp only [interval]
    push_cast
    ring
  have hlow : ((interval m e).low : ℚ) * 2 ^ (e - 2) ≤ (interval m e).mid * 2 ^ (e - 2) := by
    have : (interval m e).low ≤ (interval m e).mid := by
      unfold interval
      dsimp only
      split <;> omega
    exact mul_le_mul_of_nonneg_right (by exact_mod_cast this) (two_zpow_pos _).le
  have habove : ((q + 1 : ℕ) : ℚ) * 10 ^ p < (interval m e).high * 2 ^ (e - 2) := by
    rw [hhigh]
    push_cast
    linarith
  exact ⟨by linarith, habove.le, fun _ => ⟨by linarith, habove⟩⟩

/-- A power of ten against a power of two, for an approximate logarithm of two. -/
theorem ten_pow_le {k t : Int} (hk : 100000 * k ≤ 30103 * t) (hlow : -1100 ≤ t)
    (hhigh : t ≤ 1100) : (10 : ℚ) ^ k ≤ 2 ^ (t + 4) := by
  rcases Int.le_total 0 k with hpos | hneg
  · -- ten to the third is below two to the tenth
    have h3 : ((10 : ℚ) ^ k) ^ 3 ≤ ((2 : ℚ) ^ (t + 4)) ^ 3 := by
      calc ((10 : ℚ) ^ k) ^ 3 = (10 ^ (3 : ℕ) : ℚ) ^ k := by
            rw [← zpow_natCast, ← zpow_natCast, zpow_comm]
        _ ≤ (2 ^ (10 : ℕ) : ℚ) ^ k := by
            lift k to ℕ using hpos
            rw [zpow_natCast, zpow_natCast]
            exact pow_le_pow_left₀ (by norm_num) (by norm_num) k
        _ = 2 ^ (10 * k) := by rw [← zpow_natCast, ← zpow_mul]; rfl
        _ ≤ 2 ^ ((t + 4) * 3) := two_zpow_le (by omega)
        _ = ((2 : ℚ) ^ (t + 4)) ^ 3 := by rw [zpow_mul]; rfl
    exact le_of_pow_le_pow_left₀ (by norm_num) (two_zpow_pos _).le h3
  · -- ten to the twenty-eighth is above two to the ninety-third
    obtain ⟨j, hj⟩ := Int.exists_eq_neg_ofNat hneg
    have h28 : ((2 : ℚ) ^ (-(t + 4))) ^ 28 ≤ ((10 : ℚ) ^ j) ^ 28 := by
      calc ((2 : ℚ) ^ (-(t + 4))) ^ 28 = 2 ^ (-(t + 4) * 28) := by rw [zpow_mul]; rfl
        _ ≤ 2 ^ (93 * (j : Int)) := two_zpow_le (by omega)
        _ = (2 ^ (93 : ℕ) : ℚ) ^ j := by rw [zpow_mul, zpow_natCast]; rfl
        _ ≤ (10 ^ (28 : ℕ) : ℚ) ^ j := pow_le_pow_left₀ (by norm_num) (by norm_num) j
        _ = ((10 : ℚ) ^ j) ^ 28 := by rw [← pow_mul, ← pow_mul, Nat.mul_comm]
    have h := le_of_pow_le_pow_left₀ (by norm_num) (by positivity) h28
    rw [zpow_neg] at h
    rw [hj, zpow_neg, zpow_natCast]
    exact (inv_le_comm₀ (two_zpow_pos _) (by positivity)).mp h

/-! ## The first grid that has a multiple -/

theorem roundsTo_firstGrid {m : Nat} {e : Int} (tie : Tie) {tries : Nat} {p : Int}
    (h : ∃ j : Nat, j < tries ∧ (interval m e).nearestMultiple? tie (scale e (p - j)).1
      (scale e (p - j)).2 ≠ none) :
    RoundsTo m e (firstGrid (interval m e) tie e tries p).value := by
  induction tries generalizing p with
  | zero =>
    obtain ⟨j, hj, -⟩ := h
    omega
  | succ tries ih =>
    unfold firstGrid
    dsimp only
    cases hk : (interval m e).nearestMultiple? tie (scale e p).1 (scale e p).2 with
    | some k => exact holds_iff.mp (holds_of_nearestMultiple? hk)
    | none =>
      obtain ⟨j, hj, hsome⟩ := h
      cases j with
      | zero => simp [hk] at hsome
      | succ j =>
        refine ih ⟨j, by omega, ?_⟩
        rwa [show p - 1 - (j : Int) = p - (j + 1 : ℕ) by omega]

/-- The shortest decimal of a number rounds to the number. -/
theorem roundsTo_shortest {m : Nat} {e : Int} (hc : Canonical m e) (he : e ≤ 971) (hm : 0 < m)
    (tie : Tie) : RoundsTo m e (shortest tie m e).value := by
  unfold shortest
  refine roundsTo_firstGrid tie ⟨19, by decide, nearestMultiple?_of_fine tie ?_⟩
  have hlog : m.log2 ≤ 52 := Nat.lt_succ_iff.mp ((Nat.log2_lt hm.ne').mpr hc.lt)
  have hge := hc.ge
  generalize ht : (m.log2 : Int) + e + 1 = t
  have hbound := ten_pow_le (k := t * 30103 / 100000) (t := t) (by omega) (by omega) (by omega)
  have hsplit : (10 : ℚ) ^ (t * 30103 / 100000 + 1 - (19 : ℕ)) =
      10 ^ (t * 30103 / 100000) / 10 ^ 18 := by
    rw [show t * 30103 / 100000 + 1 - ((19 : ℕ) : Int) = t * 30103 / 100000 - (18 : ℕ) by omega,
      zpow_sub₀ (by norm_num), zpow_natCast]
  rw [hsplit, div_lt_iff₀ (by norm_num)]
  calc (10 : ℚ) ^ (t * 30103 / 100000) ≤ 2 ^ (t + 4) := hbound
    _ ≤ 2 ^ ((e - 1) + (58 : ℕ)) := two_zpow_le (by omega)
    _ = 2 ^ (e - 1) * 2 ^ 58 := by rw [zpow_add₀ (by norm_num), zpow_natCast]
    _ < 2 ^ (e - 1) * 10 ^ 18 := mul_lt_mul_of_pos_left (by norm_num) (two_zpow_pos _)

/-! ## Reading a decimal -/

section Reading

variable {m : Nat} {e : Int} {d : Decimal}

theorem coefficient_pos (hm : 0 < m) (h : RoundsTo m e d.value) : 0 < d.coefficient := by
  have hpos := h.pos hm
  by_contra hzero
  have : d.coefficient = 0 := by omega
  rw [Decimal.value, this, Nat.cast_zero, zero_mul] at hpos
  exact lt_irrefl _ hpos

theorem two_zpow_lt_ten_zpow {a k : Int} (hk : 0 ≤ k) (h : a < 3 * k) :
    (2 : ℚ) ^ a < 10 ^ k := by
  calc (2 : ℚ) ^ a < 2 ^ (3 * k) := zpow_lt_zpow_right₀ (by norm_num) h
    _ = (2 ^ (3 : Int)) ^ k := zpow_mul ..
    _ ≤ 10 ^ k := zpow_le_zpow_left₀ hk (by norm_num) (by norm_num)

theorem ten_zpow_lt_two_zpow {a k : Int} (hk : k ≤ 0) (h : 3 * k < a) :
    (10 : ℚ) ^ k < 2 ^ a := by
  have hinv := two_zpow_lt_ten_zpow (a := -a) (k := -k) (by omega) (by omega)
  rw [zpow_neg, zpow_neg] at hinv
  exact (inv_lt_inv₀ (two_zpow_pos a) (ten_zpow_pos k)).mp hinv

/-- A decimal that rounds to a finite number is below the range where reading gives up. -/
theorem exponent_le (hc : Canonical m e) (he : e ≤ 971) (hm : 0 < m)
    (h : RoundsTo m e d.value) : d.exponent ≤ 400 := by
  by_contra hbig
  have hhigh := h.near.high
  rw [div_le_iff₀ (two_zpow_pos e)] at hhigh
  have hcoeff : (1 : ℚ) ≤ d.coefficient := by exact_mod_cast coefficient_pos hm h
  have hlarge : (2 : ℚ) ^ (54 + 971 : Int) < d.value :=
    (two_zpow_lt_ten_zpow (by omega) (by omega)).trans_le
      (le_mul_of_one_le_left (ten_zpow_pos d.exponent).le hcoeff)
  have hm54 : (m : ℚ) + 1 / 2 ≤ 2 ^ (54 : Int) := by
    have hlt := hc.lt
    rw [twoTo_53] at hlt
    have hm53 : (m : ℚ) ≤ 9007199254740992 := by exact_mod_cast hlt.le
    norm_num
    linarith
  have hsmall : d.value ≤ 2 ^ (54 + 971 : Int) := by
    rw [zpow_add₀ (by norm_num)]
    exact hhigh.trans (mul_le_mul hm54 (two_zpow_le he) (two_zpow_pos e).le (two_zpow_pos _).le)
  exact absurd hsmall (not_le.mpr hlarge)

/-- A decimal that rounds to a positive number is above the range where reading gives up. -/
theorem le_exponent (hc : Canonical m e) (hm : 0 < m) (h : RoundsTo m e d.value) :
    -400 - ((d.coefficient.log2 + 1 : ℕ) : Int) ≤ d.exponent := by
  by_contra hlow
  have hnear := h.near.low
  rw [le_div_iff₀ (two_zpow_pos e)] at hnear
  have hcoeff : (d.coefficient : ℚ) ≤ 10 ^ ((d.coefficient.log2 + 1 : ℕ) : Int) := by
    calc (d.coefficient : ℚ) ≤ 2 ^ ((d.coefficient.log2 : Int) + 1) :=
          (lt_two_pow_log2 d.coefficient).le
      _ ≤ 10 ^ ((d.coefficient.log2 + 1 : ℕ) : Int) :=
          zpow_le_zpow_left₀ (by omega) (by norm_num) (by norm_num)
  have hsmall : d.value < 2 ^ (-1 + -1074 : Int) := by
    calc d.value ≤ 10 ^ ((d.coefficient.log2 + 1 : ℕ) : Int) * 10 ^ d.exponent :=
          mul_le_mul_of_nonneg_right hcoeff (ten_zpow_pos _).le
      _ = 10 ^ (((d.coefficient.log2 + 1 : ℕ) : Int) + d.exponent) :=
          (zpow_add₀ (by norm_num) ..).symm
      _ < 2 ^ (-1 + -1074 : Int) := ten_zpow_lt_two_zpow (by omega) (by omega)
  have hlarge : (2 : ℚ) ^ (-1 + -1074 : Int) ≤ d.value := by
    have hm1 : (2 : ℚ) ^ (-1 : Int) ≤ (m : ℚ) - 1 / 2 := by
      have : (1 : ℚ) ≤ m := by exact_mod_cast hm
      norm_num
      linarith
    rw [zpow_add₀ (by norm_num)]
    exact (mul_le_mul hm1 (two_zpow_le hc.ge) (two_zpow_pos _).le
      ((two_zpow_pos _).le.trans hm1)).trans hnear
  exact absurd hlarge (not_le.mpr hsmall)

/-- A decimal in the interval of a number is read as the number. -/
theorem parts_ofDecimal (hc : Canonical m e) (he : e ≤ 971) (hm : 0 < m)
    (h : RoundsTo m e d.value) (negative : Bool) :
    parts (ofDecimal negative d.coefficient d.exponent) = .finite negative m e := by
  have hpos := coefficient_pos hm h
  have hle := exponent_le hc he hm h
  have hge := le_exponent hc hm h
  unfold ofDecimal
  rw [if_neg hpos.ne', if_neg (by omega), if_neg (by omega)]
  cases hexp : d.exponent with
  | ofNat k =>
    dsimp only
    refine parts_nearest hc he (Nat.mul_pos hpos (tenTo_pos k)) Nat.one_pos ?_ negative
    have hvalue : ((d.coefficient * tenTo k : ℕ) : ℚ) / (1 : ℕ) = d.value := by
      rw [Decimal.value, hexp, Nat.cast_mul, tenTo_cast, Nat.cast_one, div_one]
      rfl
    rwa [hvalue]
  | negSucc k =>
    dsimp only
    refine parts_nearest hc he hpos (tenTo_pos (k + 1)) ?_ negative
    have hvalue : (d.coefficient : ℚ) / (tenTo (k + 1) : ℕ) = d.value := by
      rw [Decimal.value, hexp, tenTo_cast, zpow_negSucc, zpow_natCast, div_eq_mul_inv]
    rwa [hvalue]

end Reading

end LoginForest.Number
