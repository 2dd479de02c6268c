/-
  Signs of results that may overflow. A sum of numbers that are not below zero is not below zero
  either, be it infinite, and the same holds of its quotients; a difference is finite only
  between finite numbers. `Elementary.Lawful` is what finiteness asks of the logarithm and of the
  powers of two.
-/
import LoginForest.Number.Scalar
import LoginForest.Proofs.Number.Bounds
import LoginForest.Stats.Quantile

namespace LoginForest.Number

open Float.Model (UnpackedFloat)

theorem isFinite_zero : (ofNat 0).isFinite := (value_ofNat (by decide)).1

theorem value_zero : value (ofNat 0) = 0 := by
  rw [(value_ofNat (by decide)).2, Nat.cast_zero]

theorem isFinite_one : (ofNat 1).isFinite := (value_ofNat (by decide)).1

theorem value_one : value (ofNat 1) = 1 := by
  rw [(value_ofNat (by decide)).2, Nat.cast_one]

/-! ## Comparison with zero -/

theorem zero_le_iff {x : Float} :
    ofNat 0 ≤ x ↔ parts x = .infinite false ∨ x.isFinite ∧ 0 ≤ value x := by
  constructor
  · intro h
    cases hp : parts x with
    | nan => exact absurd (isNaN_iff.mpr hp) (not_isNaN_of_le h).2
    | finite negative m e =>
      have hx := isFinite_of_parts hp
      rw [le_iff_value isFinite_zero hx, value_zero] at h
      exact .inr ⟨hx, h⟩
    | infinite negative =>
      cases negative with
      | false => exact .inl rfl
      | true =>
        have hx := isFinite_of_le_of_le isFinite_zero isFinite_zero h (infinite_le hp isFinite_zero)
        obtain ⟨_, _, _, hfinite⟩ := isFinite_iff.mp hx
        rw [hp] at hfinite
        cases hfinite
  · rintro (hp | ⟨hx, h⟩)
    · exact le_infinite hp isFinite_zero
    · rwa [le_iff_value isFinite_zero hx, value_zero]

theorem le_zero_of {x : Float} (h : parts x = .infinite true ∨ x.isFinite ∧ value x ≤ 0) :
    x ≤ ofNat 0 := by
  rcases h with hp | ⟨hx, h⟩
  · exact infinite_le hp isFinite_zero
  · rwa [le_iff_value hx isFinite_zero, value_zero]

theorem zero_le_ofNat (n : Nat) : ofNat 0 ≤ ofNat n :=
  (isRounding_ofNat n).le isFinite_zero (by rw [value_zero]; exact Nat.cast_nonneg n)

/-! ## Arithmetic -/

section Arithmetic

variable {x y : Float}

theorem parts_neg_infinite {negative : Bool} (h : parts x = .infinite negative) :
    parts (-x) = .infinite (!negative) := by
  rw [neg_eq_packed, h]
  cases negative <;> rfl

theorem add_infinite_finite (negative n : Bool) (m : Nat) (e : Int) :
    UnpackedFloat.add .binary64 (Parts.infinite negative).unpacked (Parts.finite n m e).unpacked =
      .infinity (signOf negative) := by
  by_cases hm : 0 < m <;> simp [Parts.unpacked, hm, UnpackedFloat.add]

theorem add_finite_infinite (negative n : Bool) (m : Nat) (e : Int) :
    UnpackedFloat.add .binary64 (Parts.finite n m e).unpacked (Parts.infinite negative).unpacked =
      .infinity (signOf negative) := by
  by_cases hm : 0 < m <;> simp [Parts.unpacked, hm, UnpackedFloat.add]

theorem zero_le_add (hx : ofNat 0 ≤ x) (hy : ofNat 0 ≤ y) : ofNat 0 ≤ x + y := by
  rcases zero_le_iff.mp hx with hpx | ⟨hfx, hvx⟩ <;> rcases zero_le_iff.mp hy with hpy | ⟨hfy, hvy⟩
  · refine zero_le_iff.mpr (.inl ?_)
    rw [add_eq_packed, hpx, hpy]
    rfl
  · obtain ⟨n, m, e, hp⟩ := isFinite_iff.mp hfy
    refine zero_le_iff.mpr (.inl ?_)
    rw [add_eq_packed, hpx, hp, add_infinite_finite, parts_packed_infinity]
  · obtain ⟨n, m, e, hp⟩ := isFinite_iff.mp hfx
    refine zero_le_iff.mpr (.inl ?_)
    rw [add_eq_packed, hpy, hp, add_finite_infinite, parts_packed_infinity]
  · refine (isRounding_add hfx hfy).le isFinite_zero ?_
    rw [value_zero]
    exact add_nonneg hvx hvy

/-- An infinity divided by a positive number stays what it is. -/
theorem parts_infinite_div {negative : Bool} (hx : parts x = .infinite negative)
    (hy : y.isFinite) (hpos : 0 < value y) : parts (x / y) = .infinite negative := by
  obtain ⟨n, m, e, hp⟩ := isFinite_iff.mp hy
  have hm : 0 < m := by
    apply Nat.pos_of_ne_zero
    rintro rfl
    rw [value_of_parts hp, signedValue_zero] at hpos
    exact absurd hpos (lt_irrefl 0)
  have hn : n = false := by
    cases n with
    | false => rfl
    | true =>
      rw [value_of_parts hp] at hpos
      exact absurd (signedValue_neg hm e) (not_lt.mpr hpos.le)
  have hdiv : UnpackedFloat.div .binary64 (Parts.infinite negative).unpacked
      (Parts.finite false m e).unpacked = .infinity (signOf negative) := by
    simp only [Parts.unpacked, hm, dif_pos, UnpackedFloat.div, div_signOf, Bool.xor_false]
  rw [div_eq_packed, hx, hp, hn, hdiv, parts_packed_infinity]

theorem zero_le_div (hx : ofNat 0 ≤ x) (hy : y.isFinite) (hpos : 0 < value y) :
    ofNat 0 ≤ x / y := by
  rcases zero_le_iff.mp hx with hp | ⟨hfinite, hvalue⟩
  · exact zero_le_iff.mpr (.inl (parts_infinite_div hp hy hpos))
  · refine (isRounding_div hfinite hy hpos.ne').le isFinite_zero ?_
    rw [value_zero]
    exact div_nonneg hvalue hpos.le

theorem neg_div_le_zero (hx : ofNat 0 ≤ x) (hy : y.isFinite) (hpos : 0 < value y) :
    -x / y ≤ ofNat 0 := by
  rcases zero_le_iff.mp hx with hp | ⟨hfinite, hvalue⟩
  · exact le_zero_of (.inl (parts_infinite_div (parts_neg_infinite hp) hy hpos))
  · refine (isRounding_div (isFinite_neg hfinite) hy hpos.ne').ge isFinite_zero ?_
    rw [value_zero, value_neg hfinite]
    exact div_nonpos_of_nonpos_of_nonneg (neg_nonpos.mpr hvalue) hpos.le

/-- What is not a number is none after a change of sign and a division. -/
theorem isNaN_neg_div (hx : x.isNaN) (y : Float) : (-x / y).isNaN := by
  have hneg : parts (-x) = .nan := by
    rw [neg_eq_packed, isNaN_iff.mp hx]
    rfl
  rw [isNaN_iff, div_eq_packed, hneg]
  exact parts_packed_nan

/-- A difference with a part that is not finite is not finite. -/
theorem sub_unpacked_not_finite {u v : Parts}
    (h : (∀ n m e, u ≠ .finite n m e) ∨ ∀ n m e, v ≠ .finite n m e) :
    UnpackedFloat.sub .binary64 u.unpacked v.unpacked = .notANumber ∨
      ∃ s, UnpackedFloat.sub .binary64 u.unpacked v.unpacked = .infinity (signOf s) := by
  cases u with
  | nan => exact .inl rfl
  | infinite negative =>
    cases v with
    | nan => exact .inl rfl
    | infinite negative' =>
      simp only [Parts.unpacked, UnpackedFloat.sub]
      split
      · exact .inr ⟨negative, rfl⟩
      · exact .inl rfl
    | finite n m e =>
      refine .inr ⟨negative, ?_⟩
      by_cases hm : 0 < m <;> simp [Parts.unpacked, hm, UnpackedFloat.sub]
  | finite n m e =>
    have hv := h.resolve_left fun hu => hu n m e rfl
    cases v with
    | nan => by_cases hm : 0 < m <;> simp [Parts.unpacked, hm, UnpackedFloat.sub]
    | infinite negative =>
      refine .inr ⟨!negative, ?_⟩
      by_cases hm : 0 < m <;> simp [Parts.unpacked, hm, UnpackedFloat.sub, neg_signOf]
    | finite n' m' e' => exact absurd rfl (hv n' m' e')

/-- Only finite numbers have a finite distance. -/
theorem isFinite_of_sub (h : (x - y).isFinite) : x.isFinite ∧ y.isFinite := by
  obtain ⟨n, m, e, h⟩ := isFinite_iff.mp h
  rw [sub_eq_packed] at h
  by_contra hne
  have hparts : (∀ n m e, parts x ≠ .finite n m e) ∨ ∀ n m e, parts y ≠ .finite n m e := by
    rw [isFinite_iff, isFinite_iff, not_and_or] at hne
    exact hne.imp (fun h n m e hp => h ⟨n, m, e, hp⟩) fun h n m e hp => h ⟨n, m, e, hp⟩
  rcases sub_unpacked_not_finite hparts with hsub | ⟨s, hsub⟩
  · rw [hsub, parts_packed_nan] at h
    cases h
  · rw [hsub, parts_packed_infinity] at h
    cases h

end Arithmetic

end LoginForest.Number

namespace LoginForest

open Number

theorem isFinite_half : (half : Float).isFinite ∧ value (half : Float) = 1 / 2 := by
  obtain ⟨htwo, hvalue⟩ := value_ofNat (n := 2) (by decide)
  have h := isRounding_div isFinite_one htwo (by rw [hvalue]; norm_num)
  rw [value_one, hvalue] at h
  exact h.exact (m := 1) (e := -1) (by decide) (by decide) (by decide) (by norm_num)

/-- Bounds of the natural logarithm from one on, of that of one and a number from zero on, and of
the powers of two up to one. -/
class Elementary.Lawful [Elementary] : Prop where
  log_bounds : ∀ x : Float, x.isFinite → ofNat 1 ≤ x →
    ofNat 0 ≤ Elementary.log x ∧ Elementary.log x ≤ x
  half_le_log : ∀ x : Float, x.isFinite → ofNat 2 ≤ x → half ≤ Elementary.log x
  log1p_bounds : ∀ x : Float, x.isFinite → ofNat 0 ≤ x →
    ofNat 0 ≤ Elementary.log1p x ∧ Elementary.log1p x ≤ x
  twoToThe_bounds : ∀ x : Float, x ≤ ofNat 0 →
    ofNat 0 ≤ Elementary.twoToThe x ∧ Elementary.twoToThe x ≤ ofNat 1

/-- What is bounded by zero and a finite number is finite. -/
theorem spec_of_bounds {x y : Float} (hx : x.isFinite) (h : ofNat 0 ≤ y ∧ y ≤ x) :
    y.isFinite ∧ 0 ≤ value y ∧ value y ≤ value x := by
  obtain ⟨hlow, hhigh⟩ := h
  have hfinite := isFinite_of_le_of_le isFinite_zero hx hlow hhigh
  rw [le_iff_value isFinite_zero hfinite, value_zero] at hlow
  rw [le_iff_value hfinite hx] at hhigh
  exact ⟨hfinite, hlow, hhigh⟩

theorem log_spec [Elementary] [Elementary.Lawful] {x : Float} (hx : x.isFinite)
    (h1 : 1 ≤ value x) : (Elementary.log x).isFinite ∧ 0 ≤ value (Elementary.log x) ∧
      value (Elementary.log x) ≤ value x := by
  have hone : ofNat 1 ≤ x := by rwa [le_iff_value isFinite_one hx, value_one]
  exact spec_of_bounds hx (Elementary.Lawful.log_bounds x hx hone)

end LoginForest
