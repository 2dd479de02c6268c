/-
  The rational that a finite binary64 number denotes, and the order of numbers by it. Canonical
  parts are ordered by exponent and then by mantissa, which is the order of what they denote
  (`compare_unpacked`); infinities lie beyond all finite numbers, and NaN is not ordered.
-/
import LoginForest.Proofs.Number.Parts

namespace LoginForest.Number

open Float.Model (UnpackedFloat)

/-! ## What numbers denote -/

/-- `m · 2^e`, or its negative. -/
def signedValue (negative : Bool) (m : Nat) (e : Int) : ℚ :=
  if negative then -((m : ℚ) * 2 ^ e) else (m : ℚ) * 2 ^ e

/-- What finite parts denote; zero for the others. -/
def Parts.value : Parts → ℚ
  | .finite negative m e => signedValue negative m e
  | _ => 0

/-- What a finite number denotes; zero for the others. -/
def value (x : Float) : ℚ := (parts x).value

theorem value_of_parts {x : Float} {negative : Bool} {m : Nat} {e : Int}
    (h : parts x = .finite negative m e) : value x = signedValue negative m e := by
  rw [value, h, Parts.value]

theorem twoTo_cast (n : Nat) : (twoTo n : ℚ) = 2 ^ (n : Int) := by
  rw [zpow_natCast]
  exact Nat.cast_pow 2 n

theorem two_zpow_pos (e : Int) : (0 : ℚ) < 2 ^ e := zpow_pos (by norm_num) e

@[simp]
theorem signedValue_false (m : Nat) (e : Int) : signedValue false m e = m * 2 ^ e := rfl

@[simp]
theorem signedValue_true (m : Nat) (e : Int) : signedValue true m e = -(m * 2 ^ e) := rfl

@[simp]
theorem signedValue_zero (negative : Bool) (e : Int) : signedValue negative 0 e = 0 := by
  cases negative <;> simp

theorem abs_signedValue (negative : Bool) (m : Nat) (e : Int) :
    |signedValue negative m e| = m * 2 ^ e := by
  have hnonneg : (0 : ℚ) ≤ m * 2 ^ e := mul_nonneg (Nat.cast_nonneg m) (two_zpow_pos e).le
  cases negative
  · rw [signedValue_false, abs_of_nonneg hnonneg]
  · rw [signedValue_true, abs_neg, abs_of_nonneg hnonneg]

theorem two_zpow_le {a b : Int} (h : a ≤ b) : (2 : ℚ) ^ a ≤ 2 ^ b :=
  zpow_le_zpow_right₀ (by norm_num) h

/-- `2^a` is a whole multiple of `2^b` for a larger exponent. -/
theorem two_zpow_split {a b : Int} (h : b ≤ a) :
    (2 : ℚ) ^ a = (twoTo (a - b).toNat : ℚ) * 2 ^ b := by
  rw [twoTo_cast, ← zpow_add₀ (by norm_num)]
  congr 1
  omega

/-- The whole part of a quotient. -/
theorem natCast_div_bounds (n : Nat) {d : Nat} (hd : 0 < d) :
    ((n / d : ℕ) : ℚ) ≤ n / d ∧ (n : ℚ) / d < (n / d : ℕ) + 1 := by
  have hdq : (0 : ℚ) < d := by exact_mod_cast hd
  have hhigh : n < (n / d + 1) * d := by
    have := Nat.div_add_mod n d
    have := Nat.mod_lt n hd
    rw [Nat.add_mul, Nat.mul_comm]
    omega
  refine ⟨Nat.cast_div_le, ?_⟩
  rw [div_lt_iff₀ hdq]
  exact_mod_cast hhigh

/-! ## Classes of numbers -/

theorem isFinite_iff {x : Float} : x.isFinite ↔ ∃ negative m e, parts x = .finite negative m e := by
  have hu : x.isFinite = (parts x).unpacked.isFinite := by rw [← unpack_toModel]; rfl
  rw [hu]
  cases h : parts x with
  | nan => simp [Parts.unpacked, UnpackedFloat.isFinite]
  | infinite negative => simp [Parts.unpacked, UnpackedFloat.isFinite]
  | finite negative m e =>
    by_cases hm : 0 < m <;> simp [Parts.unpacked, UnpackedFloat.isFinite, hm]

theorem isFinite_of_parts {x : Float} {negative : Bool} {m : Nat} {e : Int}
    (h : parts x = .finite negative m e) : x.isFinite :=
  isFinite_iff.mpr ⟨negative, m, e, h⟩

theorem isNaN_iff {x : Float} : x.isNaN ↔ parts x = .nan := by
  have hu : x.isNaN = (parts x).unpacked.isNaN := by rw [← unpack_toModel]; rfl
  rw [hu]
  cases h : parts x with
  | nan => exact ⟨fun _ => rfl, fun _ => rfl⟩
  | infinite negative =>
    constructor <;> intro hn <;> cases hn
  | finite negative m e =>
    refine ⟨fun hn => ?_, fun hn => by cases hn⟩
    by_cases hm : 0 < m
    · rw [Parts.unpacked, dif_pos hm] at hn
      cases hn
    · rw [Parts.unpacked, dif_neg hm] at hn
      cases hn

theorem not_isNaN_of_isFinite {x : Float} (h : x.isFinite) : ¬ x.isNaN := by
  obtain ⟨negative, m, e, hp⟩ := isFinite_iff.mp h
  rw [isNaN_iff, hp]
  exact Parts.noConfusion

/-! ## Order -/

/-- The order of canonical mantissas and exponents. -/
theorem magnitude_lt_iff {m m' : Nat} {e e' : Int} (h : Canonical m e) (h' : Canonical m' e') :
    (m : ℚ) * 2 ^ e < m' * 2 ^ e' ↔ e < e' ∧ 0 < m' ∨ e = e' ∧ m < m' := by
  have grow : ∀ {m m' : Nat} {e e' : Int}, Canonical m e → Canonical m' e' → e < e' →
      (m : ℚ) * 2 ^ e < m' * 2 ^ e' := by
    intro m m' e e' h h' he
    have hm : (m : ℚ) < 2 * twoTo 52 := by
      have := h.lt
      rw [twoTo_succ] at this
      exact_mod_cast this
    have hm' : (twoTo 52 : ℚ) ≤ m' := by
      have := h.ge
      exact_mod_cast h'.normal.resolve_right (by omega)
    calc (m : ℚ) * 2 ^ e < 2 * twoTo 52 * 2 ^ e := by
          exact mul_lt_mul_of_pos_right hm (two_zpow_pos e)
      _ = twoTo 52 * 2 ^ (e + 1) := by rw [zpow_add_one₀ (by norm_num)]; ring
      _ ≤ m' * 2 ^ e' :=
          mul_le_mul hm' (two_zpow_le (by omega)) (two_zpow_pos _).le (Nat.cast_nonneg _)
  rcases lt_trichotomy e e' with he | he | he
  · have hpos : 0 < m' := by
      have := h.ge
      have := h'.normal.resolve_right (by omega)
      have := twoTo_pos 52
      omega
    exact ⟨fun _ => .inl ⟨he, hpos⟩, fun _ => grow h h' he⟩
  · subst he
    rw [mul_lt_mul_iff_left₀ (two_zpow_pos e), Nat.cast_lt]
    simp
  · have := grow h' h he
    constructor
    · intro hlt
      exact absurd (hlt.trans this) (lt_irrefl _)
    · rintro (⟨h1, -⟩ | ⟨h1, -⟩) <;> omega

theorem cmp_magnitude {m m' : Nat} {e e' : Int} (h : Canonical m e) (h' : Canonical m' e')
    (hm : 0 < m) (hm' : 0 < m') :
    (compare e e').then (compare m m') = cmp ((m : ℚ) * 2 ^ e) (m' * 2 ^ e') := by
  rcases lt_trichotomy ((m : ℚ) * 2 ^ e) (m' * 2 ^ e') with hlt | heq | hgt
  · rw [cmp_eq_lt_iff _ _ |>.mpr hlt]
    rcases (magnitude_lt_iff h h').mp hlt with ⟨he, -⟩ | ⟨rfl, hmm⟩
    · rw [compare_lt_iff_lt.mpr he]; rfl
    · rw [compare_eq_iff_eq.mpr rfl, compare_lt_iff_lt.mpr hmm]; rfl
  · rw [cmp_eq_eq_iff _ _ |>.mpr heq]
    have hn : ¬ (m : ℚ) * 2 ^ e < m' * 2 ^ e' := heq.not_lt
    have hn' : ¬ (m' : ℚ) * 2 ^ e' < m * 2 ^ e := heq.not_gt
    rw [magnitude_lt_iff h h'] at hn
    rw [magnitude_lt_iff h' h] at hn'
    have he : e = e' := by omega
    have hmm : m = m' := by omega
    rw [compare_eq_iff_eq.mpr he, compare_eq_iff_eq.mpr hmm]
    rfl
  · rw [cmp_eq_gt_iff _ _ |>.mpr hgt]
    rcases (magnitude_lt_iff h' h).mp hgt with ⟨he, -⟩ | ⟨rfl, hmm⟩
    · rw [compare_gt_iff_gt.mpr he]; rfl
    · rw [compare_eq_iff_eq.mpr rfl, compare_gt_iff_gt.mpr hmm]; rfl

theorem isLE_cmp_iff {a b : ℚ} : (cmp a b).isLE ↔ a ≤ b := by
  rcases lt_trichotomy a b with hlt | heq | hgt
  · rw [cmp_eq_lt_iff _ _ |>.mpr hlt]
    exact ⟨fun _ => hlt.le, fun _ => rfl⟩
  · rw [cmp_eq_eq_iff _ _ |>.mpr heq]
    exact ⟨fun _ => heq.le, fun _ => rfl⟩
  · rw [cmp_eq_gt_iff _ _ |>.mpr hgt]
    exact ⟨fun h => (by cases h), fun hle => absurd hle (not_le.mpr hgt)⟩

/-- Negation turns the order round. -/
theorem cmp_neg (a b : ℚ) : (cmp a b).swap = cmp (-a) (-b) := by
  rw [cmp_swap]
  rcases lt_trichotomy b a with hlt | heq | hgt
  · rw [cmp_eq_lt_iff _ _ |>.mpr hlt, cmp_eq_lt_iff _ _ |>.mpr (neg_lt_neg hlt)]
  · rw [cmp_eq_eq_iff _ _ |>.mpr heq, cmp_eq_eq_iff _ _ |>.mpr (by rw [heq])]
  · rw [cmp_eq_gt_iff _ _ |>.mpr hgt, cmp_eq_gt_iff _ _ |>.mpr (neg_lt_neg hgt)]

theorem signedValue_pos {m : Nat} (hm : 0 < m) (e : Int) : 0 < signedValue false m e := by
  have : (0 : ℚ) < m := by exact_mod_cast hm
  have := two_zpow_pos e
  rw [signedValue_false]
  positivity

theorem signedValue_neg {m : Nat} (hm : 0 < m) (e : Int) : signedValue true m e < 0 := by
  have := signedValue_pos hm e
  rw [signedValue_false] at this
  rw [signedValue_true]
  linarith

/-- Finite numbers compare as what they denote. -/
theorem compare_unpacked {n n' : Bool} {m m' : Nat} {e e' : Int} (h : Canonical m e)
    (h' : Canonical m' e') :
    (Parts.finite n m e).unpacked.compare (Parts.finite n' m' e').unpacked =
      some (cmp (signedValue n m e) (signedValue n' m' e')) := by
  rcases Nat.eq_zero_or_pos m with rfl | hm <;> rcases Nat.eq_zero_or_pos m' with rfl | hm'
  · rw [signedValue_zero, signedValue_zero, cmp_self_eq_eq]
    rfl
  · rw [signedValue_zero, unpacked_zero, unpacked_of_pos hm']
    cases n'
    · rw [cmp_eq_lt_iff _ _ |>.mpr (signedValue_pos hm' e')]
      rfl
    · rw [cmp_eq_gt_iff _ _ |>.mpr (signedValue_neg hm' e')]
      rfl
  · rw [signedValue_zero, unpacked_zero, unpacked_of_pos hm]
    cases n
    · rw [cmp_eq_gt_iff _ _ |>.mpr (signedValue_pos hm e)]
      rfl
    · rw [cmp_eq_lt_iff _ _ |>.mpr (signedValue_neg hm e)]
      rfl
  · rw [unpacked_of_pos hm, unpacked_of_pos hm']
    cases n <;> cases n'
    · rw [signedValue_false, signedValue_false, ← cmp_magnitude h h' hm hm']
      rfl
    · rw [cmp_eq_gt_iff _ _ |>.mpr ((signedValue_neg hm' e').trans (signedValue_pos hm e))]
      rfl
    · rw [cmp_eq_lt_iff _ _ |>.mpr ((signedValue_neg hm e).trans (signedValue_pos hm' e'))]
      rfl
    · rw [signedValue_true, signedValue_true, ← cmp_neg, ← cmp_magnitude h h' hm hm']
      rfl

theorem compare_infinite_finite (negative n : Bool) (m : Nat) (e : Int) :
    (Parts.infinite negative).unpacked.compare (Parts.finite n m e).unpacked =
      some (if negative then .lt else .gt) := by
  rcases Nat.eq_zero_or_pos m with rfl | hm
  · rw [unpacked_zero]
    cases negative <;> rfl
  · rw [unpacked_of_pos hm]
    cases negative <;> rfl

theorem compare_finite_infinite (negative n : Bool) (m : Nat) (e : Int) :
    (Parts.finite n m e).unpacked.compare (Parts.infinite negative).unpacked =
      some (if negative then .gt else .lt) := by
  rcases Nat.eq_zero_or_pos m with rfl | hm
  · rw [unpacked_zero]
    cases negative <;> rfl
  · rw [unpacked_of_pos hm]
    cases negative <;> cases n <;> rfl

theorem lt_iff_compare {x y : Float} :
    x < y ↔ (parts x).unpacked.compare (parts y).unpacked = some .lt := by
  have h : x < y ↔ (x.toModel.unpack.lt y.toModel.unpack) = true := by
    show (decide (x.toModel < y.toModel)) = true ↔ _
    rw [decide_eq_true_iff]
    rfl
  rw [h, unpack_toModel, unpack_toModel, UnpackedFloat.lt, beq_iff_eq]

theorem le_iff_compare {x y : Float} :
    x ≤ y ↔ ∃ o, (parts x).unpacked.compare (parts y).unpacked = some o ∧ o.isLE := by
  have h : x ≤ y ↔ (x.toModel.unpack.le y.toModel.unpack) = true := by
    show (decide (x.toModel ≤ y.toModel)) = true ↔ _
    rw [decide_eq_true_iff]
    rfl
  rw [h, unpack_toModel, unpack_toModel, UnpackedFloat.le, Option.any_eq_true]

theorem le_of_lt {x y : Float} (h : x < y) : x ≤ y :=
  le_iff_compare.mpr ⟨.lt, lt_iff_compare.mp h, rfl⟩

/-- Finite numbers are ordered as what they denote. -/
theorem lt_iff_value {x y : Float} (hx : x.isFinite) (hy : y.isFinite) :
    x < y ↔ value x < value y := by
  obtain ⟨n, m, e, h⟩ := isFinite_iff.mp hx
  obtain ⟨n', m', e', h'⟩ := isFinite_iff.mp hy
  rw [lt_iff_compare, h, h', compare_unpacked (encode_parts h).1 (encode_parts h').1,
    value_of_parts h, value_of_parts h', Option.some_inj, cmp_eq_lt_iff]

theorem le_iff_value {x y : Float} (hx : x.isFinite) (hy : y.isFinite) :
    x ≤ y ↔ value x ≤ value y := by
  obtain ⟨n, m, e, h⟩ := isFinite_iff.mp hx
  obtain ⟨n', m', e', h'⟩ := isFinite_iff.mp hy
  rw [le_iff_compare, h, h', compare_unpacked (encode_parts h).1 (encode_parts h').1,
    value_of_parts h, value_of_parts h']
  constructor
  · rintro ⟨o, ho, hle⟩
    obtain rfl := Option.some.inj ho
    exact isLE_cmp_iff.mp hle
  · intro hle
    exact ⟨_, rfl, isLE_cmp_iff.mpr hle⟩

/-- Finite numbers are equal when they denote the same. -/
theorem beq_iff_value {x y : Float} (hx : x.isFinite) (hy : y.isFinite) :
    (x == y) = true ↔ value x = value y := by
  obtain ⟨n, m, e, h⟩ := isFinite_iff.mp hx
  obtain ⟨n', m', e', h'⟩ := isFinite_iff.mp hy
  have hu : (x == y) = x.toModel.unpack.beq y.toModel.unpack := rfl
  rw [hu, unpack_toModel, unpack_toModel, UnpackedFloat.beq, beq_iff_eq, h, h',
    compare_unpacked (encode_parts h).1 (encode_parts h').1, value_of_parts h, value_of_parts h',
    Option.some_inj, cmp_eq_eq_iff]

/-- Only numbers are ordered. -/
theorem not_isNaN_of_lt {x y : Float} (h : x < y) : ¬ x.isNaN ∧ ¬ y.isNaN := by
  rw [isNaN_iff, isNaN_iff]
  rw [lt_iff_compare] at h
  constructor
  · intro hx
    rw [hx] at h
    simp [Parts.unpacked, UnpackedFloat.compare] at h
  · intro hy
    rw [hy] at h
    cases hp : (parts x).unpacked <;> rw [hp] at h <;>
      simp [Parts.unpacked, UnpackedFloat.compare] at h

theorem not_isNaN_of_le {x y : Float} (h : x ≤ y) : ¬ x.isNaN ∧ ¬ y.isNaN := by
  rw [isNaN_iff, isNaN_iff]
  rw [le_iff_compare] at h
  obtain ⟨o, h, -⟩ := h
  constructor
  · intro hx
    rw [hx] at h
    simp [Parts.unpacked, UnpackedFloat.compare] at h
  · intro hy
    rw [hy] at h
    cases hp : (parts x).unpacked <;> rw [hp] at h <;>
      simp [Parts.unpacked, UnpackedFloat.compare] at h

/-- A number between finite ones is finite. -/
theorem isFinite_of_le_of_le {p x q : Float} (hp : p.isFinite) (hq : q.isFinite) (h : p ≤ x)
    (h' : x ≤ q) : x.isFinite := by
  obtain ⟨n, m, e, hp⟩ := isFinite_iff.mp hp
  obtain ⟨n', m', e', hq⟩ := isFinite_iff.mp hq
  cases hx : parts x with
  | nan => exact absurd (isNaN_iff.mpr hx) (not_isNaN_of_le h).2
  | finite negative m e => exact isFinite_of_parts hx
  | infinite negative =>
    rw [le_iff_compare, hx] at h h'
    obtain ⟨o, ho, hle⟩ := h
    obtain ⟨o', ho', hle'⟩ := h'
    rw [hp, compare_finite_infinite, Option.some_inj] at ho
    rw [hq, compare_infinite_finite, Option.some_inj] at ho'
    cases negative
    · subst ho'
      cases hle'
    · subst ho
      cases hle

end LoginForest.Number
