/-
  Numbers with the infinities in one order. What the comparison of two numbers says is the order
  of the rationals that they denote, with one point beyond each end (`lt_iff_extended`); only what
  is no number is left out.
-/
import LoginForest.Proofs.Number.Monotone

namespace LoginForest.Number

/-- The place of a number among the rationals and the two ends. -/
def Parts.extended : Parts → WithBot (WithTop ℚ)
  | .finite negative m e => ((signedValue negative m e : ℚ) : WithTop ℚ)
  | .infinite false => (⊤ : WithTop ℚ)
  | .infinite true => ⊥
  | .nan => ⊥

/-- What a number denotes, an infinity the end that it lies at. -/
def extended (x : Float) : WithBot (WithTop ℚ) := (parts x).extended

variable {x y : Float}

theorem extended_of_isFinite (hx : x.isFinite) :
    extended x = ((value x : ℚ) : WithTop ℚ) := by
  obtain ⟨n, m, e, hp⟩ := isFinite_iff.mp hx
  rw [extended, value, hp]
  rfl

/-- What lies where a finite number lies is finite and denotes the same. -/
theorem isFinite_of_extended (hy : y.isFinite) (h : extended x = extended y) :
    x.isFinite ∧ value x = value y := by
  rw [extended_of_isFinite hy, extended] at h
  cases hp : parts x with
  | nan => rw [hp] at h; cases h
  | infinite negative => cases negative <;> rw [hp] at h <;> cases h
  | finite n m e =>
    rw [hp] at h
    rw [value_of_parts hp]
    exact ⟨isFinite_of_parts hp, WithTop.coe_inj.mp (WithBot.coe_inj.mp h)⟩

/-- Numbers are ordered as their places are. -/
theorem lt_iff_extended (hx : ¬ x.isNaN) (hy : ¬ y.isNaN) : x < y ↔ extended x < extended y := by
  rw [isNaN_iff] at hx hy
  rw [lt_iff_compare, extended, extended]
  cases hpx : parts x with
  | nan => exact absurd hpx hx
  | infinite negative =>
    cases hpy : parts y with
    | nan => exact absurd hpy hy
    | infinite negative' => cases negative <;> cases negative' <;> decide
    | finite n m e =>
      rw [compare_infinite_finite]
      cases negative <;> simp [Parts.extended]
  | finite n m e =>
    cases hpy : parts y with
    | nan => exact absurd hpy hy
    | infinite negative =>
      rw [compare_finite_infinite]
      cases negative with
      | false => exact iff_of_true rfl (WithBot.coe_lt_coe.mpr (WithTop.coe_lt_top _))
      | true => simp [Parts.extended]
    | finite n' m' e' =>
      rw [← hpx, ← hpy, ← lt_iff_compare,
        lt_iff_value (isFinite_of_parts hpx) (isFinite_of_parts hpy), value_of_parts hpx,
        value_of_parts hpy, hpx, hpy]
      simp [Parts.extended]

theorem not_lt_iff_extended (hx : ¬ x.isNaN) (hy : ¬ y.isNaN) :
    ¬ x < y ↔ extended y ≤ extended x := by
  rw [lt_iff_extended hx hy, not_lt]

theorem extended_zero_le (h : ofNat 0 ≤ x) : extended (ofNat 0) ≤ extended x := by
  rcases zero_le_iff.mp h with hp | ⟨hx, h0⟩
  · rw [show extended x = (⊤ : WithTop ℚ) by rw [extended, hp]; rfl,
      extended_of_isFinite isFinite_zero]
    exact WithBot.coe_le_coe.mpr le_top
  · rw [extended_of_isFinite isFinite_zero, extended_of_isFinite hx, value_zero]
    exact WithBot.coe_le_coe.mpr (WithTop.coe_le_coe.mpr h0)

/-- What lies between finite numbers is finite. -/
theorem isFinite_of_extended_between {p q : Float} (hp : p.isFinite) (hq : q.isFinite)
    (hpx : extended p ≤ extended x) (hxq : extended x ≤ extended q) :
    x.isFinite ∧ value p ≤ value x ∧ value x ≤ value q := by
  have hx : x.isFinite := by
    rw [extended_of_isFinite hp, extended] at hpx
    rw [extended_of_isFinite hq, extended] at hxq
    cases hparts : parts x with
    | nan =>
      rw [hparts] at hpx
      exact absurd hpx (WithBot.bot_lt_coe _).not_ge
    | infinite negative =>
      rw [hparts] at hpx hxq
      cases negative with
      | false => exact absurd (WithBot.coe_le_coe.mp hxq) (WithTop.coe_lt_top _).not_ge
      | true => exact absurd hpx (WithBot.bot_lt_coe _).not_ge
    | finite n m e => exact isFinite_of_parts hparts
  rw [extended_of_isFinite hx] at hpx hxq
  rw [extended_of_isFinite hp] at hpx
  rw [extended_of_isFinite hq] at hxq
  exact ⟨hx, WithTop.coe_le_coe.mp (WithBot.coe_le_coe.mp hpx),
    WithTop.coe_le_coe.mp (WithBot.coe_le_coe.mp hxq)⟩

/-- There are two zeros. -/
theorem eq_zero_of_value (hx : x.isFinite) (h : value x = 0) : x = ofNat 0 ∨ x = -ofNat 0 := by
  have hzero : parts (ofNat 0) = .finite false 0 (-1074) := by decide +kernel
  obtain ⟨negative, m, e, hp⟩ := isFinite_iff.mp hx
  obtain ⟨hc, -, -⟩ := encode_parts hp
  rw [value_of_parts hp] at h
  obtain rfl : m = 0 := by
    by_contra hm
    cases negative with
    | false => exact (signedValue_pos (Nat.pos_of_ne_zero hm) e).ne' h
    | true => exact (signedValue_neg (Nat.pos_of_ne_zero hm) e).ne h
  obtain rfl : e = -1074 := hc.normal.resolve_left (by decide)
  cases negative with
  | false => exact .inl (eq_of_parts_eq hp hzero)
  | true => exact .inr (eq_of_parts_eq hp (parts_neg hzero))

/-- The bits of the two infinities. -/
theorem toNat_toBits_of_infinite {negative : Bool} (h : parts x = .infinite negative) :
    x.toBits.toNat = infinityBits + if negative then twoTo 63 else 0 := by
  have hbits := toBits_lt x
  unfold parts at h
  rw [partsOfBits_eq] at h
  split at h
  case isFalse => split at h <;> cases h
  case isTrue hbiased =>
    split at h
    case isFalse => cases h
    case isTrue hfraction =>
      obtain rfl := Parts.infinite.inj h
      simp only [infinityBits, twoTo_52, twoTo_63, twoTo_64, decide_eq_true_eq] at hbits ⊢
      split <;> omega

/-- Two numbers lie at one place only if they are the same, or the two zeros. -/
theorem eq_or_zeros_of_extended (hx : ¬ x.isNaN) (hy : ¬ y.isNaN) (h : extended x = extended y) :
    x = y ∨ x = ofNat 0 ∧ y = -ofNat 0 ∨ x = -ofNat 0 ∧ y = ofNat 0 := by
  rw [isNaN_iff] at hx hy
  cases hpy : parts y with
  | nan => exact absurd hpy hy
  | infinite negative =>
    have hpx : parts x = .infinite negative := by
      rw [extended, extended, hpy] at h
      cases hpx : parts x with
      | nan => exact absurd hpx hx
      | infinite negative' =>
        rw [hpx] at h
        cases negative <;> cases negative' <;> first | rfl | cases h
      | finite n m e =>
        rw [hpx] at h
        cases negative <;> cases h
    exact .inl <| eq_of_toBits_eq <|
      (toNat_toBits_of_infinite hpx).trans (toNat_toBits_of_infinite hpy).symm
  | finite n m e =>
    have hy' := isFinite_of_parts hpy
    obtain ⟨hx', hvalue⟩ := isFinite_of_extended hy' h
    by_cases h0 : value x = 0
    · rcases eq_zero_of_value hx' h0 with rfl | rfl <;>
        rcases eq_zero_of_value hy' (hvalue ▸ h0) with rfl | rfl <;> simp
    · exact .inl (eq_of_value_eq hx' hy' hvalue h0)

/-- Whether a difference is finite hangs on what its parts denote, not on the signs of zeros. -/
theorem isFinite_sub_of_value_eq {x' y' : Float} (hx : x.isFinite) (hy : y.isFinite)
    (hxv : value x = value x') (hyv : value y = value y') (h : (x' - y').isFinite) :
    (x - y).isFinite := by
  obtain ⟨hx', hy'⟩ := isFinite_of_sub h
  have hround := isRounding_sub hx hy
  by_cases hx0 : value x = 0
  · rw [hx0, zero_sub, ← value_neg hy] at hround
    exact (hround.value_eq (isFinite_neg hy) rfl).1
  · obtain rfl := eq_of_value_eq hx hx' hxv hx0
    by_cases hy0 : value y = 0
    · rw [hy0, sub_zero] at hround
      exact (hround.value_eq hx rfl).1
    · obtain rfl := eq_of_value_eq hy hy' hyv hy0
      exact h

end LoginForest.Number
