/-
  What rounding to a binary64 number keeps. `IsRounding r x` says that no number lies strictly
  between the exact result `r` and `x`: every number that is no greater than `r` is no greater
  than `x`, and the other way round. An exact result that is a number is hit (`value_eq`), one
  between two numbers stays between them, and one beyond the largest becomes infinite.
  `IsNearest r x` says besides that no number is nearer to `r` than `x`, so that a greater exact
  result is not rounded to a smaller number (`value_le_of_lt`). Both hold of the sum, the
  difference, the product and the quotient of finite numbers (`add`, `sub`, `mul`, `div`).
-/
import LoginForest.Proofs.Number.Value

namespace LoginForest.Number

open Float.Model (UnpackedFloat)

/-! ## Values on the grid -/

/-- A rational with a mantissa of 53 bits and an exponent in range below. -/
def OnGrid (q : ℚ) : Prop := ∃ (k : ℤ) (e : Int), |k| < twoTo 53 ∧ -1074 ≤ e ∧ q = k * 2 ^ e

theorem OnGrid.neg {q : ℚ} (h : OnGrid q) : OnGrid (-q) := by
  obtain ⟨k, e, hk, he, rfl⟩ := h
  exact ⟨-k, e, by rwa [abs_neg], he, by push_cast; ring⟩

theorem onGrid_signedValue {m : Nat} {e : Int} (h : Canonical m e) (negative : Bool) :
    OnGrid (signedValue negative m e) := by
  have hm : |(m : ℤ)| < twoTo 53 := by
    rw [abs_of_nonneg (Int.natCast_nonneg m)]
    exact_mod_cast h.lt
  have hpos : OnGrid ((m : ℚ) * 2 ^ e) := ⟨m, e, hm, h.ge, by push_cast; ring⟩
  cases negative
  · exact hpos
  · exact hpos.neg

theorem onGrid_value (x : Float) : OnGrid (value x) := by
  cases h : parts x with
  | finite negative m e =>
    rw [value_of_parts h]
    exact onGrid_signedValue (encode_parts h).1 negative
  | nan => exact ⟨0, 0, by decide, by decide, by simp [value, h, Parts.value]⟩
  | infinite negative => exact ⟨0, 0, by decide, by decide, by simp [value, h, Parts.value]⟩

/-- Nothing on the grid lies strictly between `v` and `w`. -/
def Faithful (v w : ℚ) : Prop := ∀ q, OnGrid q → (q ≤ v → q ≤ w) ∧ (v ≤ q → w ≤ q)

theorem Faithful.refl (v : ℚ) : Faithful v v := fun _ _ => ⟨id, id⟩

theorem Faithful.neg {v w : ℚ} (h : Faithful v w) : Faithful (-v) (-w) := by
  intro q hq
  obtain ⟨h1, h2⟩ := h (-q) hq.neg
  exact ⟨fun hle => by linarith [h2 (by linarith)], fun hle => by linarith [h1 (by linarith)]⟩

/-- Rounding up or down at the last place of a full mantissa, or at the least exponent, is
faithful. -/
theorem faithful_of_floor {v : ℚ} {q r : Nat} {t : Int} (hlow : (q : ℚ) * 2 ^ t ≤ v)
    (hhigh : v < (q + 1) * 2 ^ t) (hr : r = q ∨ r = q + 1 ∧ (q : ℚ) * 2 ^ t < v)
    (hfull : twoTo 52 ≤ q ∨ t ≤ -1074) : Faithful v (r * 2 ^ t) := by
  have hpos := two_zpow_pos t
  have hqr : (q : ℚ) ≤ r := by rcases hr with rfl | ⟨rfl, -⟩ <;> simp
  rintro d ⟨k, a, hk, ha, rfl⟩
  by_cases hat : t ≤ a
  · -- the grid value is a whole multiple of the last place
    obtain ⟨K, hK⟩ : ∃ K : ℤ, (k : ℚ) * 2 ^ a = K * 2 ^ t :=
      ⟨k * twoTo (a - t).toNat, by rw [two_zpow_split hat]; push_cast; ring⟩
    rw [hK]
    constructor
    · intro hle
      have hlt : (K : ℚ) < (q + 1 : ℤ) := by
        push_cast
        exact lt_of_mul_lt_mul_right (hle.trans_lt hhigh) hpos.le
      have hKq : (K : ℚ) ≤ q := by exact_mod_cast Int.lt_add_one_iff.mp (by exact_mod_cast hlt)
      exact mul_le_mul_of_nonneg_right (hKq.trans hqr) hpos.le
    · intro hle
      have hqK : (q : ℚ) ≤ K := le_of_mul_le_mul_right (hlow.trans hle) hpos
      rcases hr with rfl | ⟨rfl, hlt⟩
      · exact mul_le_mul_of_nonneg_right hqK hpos.le
      · have hlt' : (q : ℚ) < K := lt_of_mul_lt_mul_right (hlt.trans_le hle) hpos.le
        have : ((q + 1 : ℕ) : ℚ) ≤ K := by
          have : (q : ℤ) < K := by exact_mod_cast hlt'
          exact_mod_cast Int.add_one_le_of_lt this
        exact mul_le_mul_of_nonneg_right this hpos.le
  · -- the grid value is smaller than every full mantissa at this exponent
    have hq : (twoTo 52 : ℚ) ≤ q := by exact_mod_cast hfull.resolve_right (by omega)
    have hsmall : |(k : ℚ) * 2 ^ a| < q * 2 ^ t := by
      have hk' : |(k : ℚ)| < 2 * twoTo 52 := by
        rw [twoTo_succ] at hk
        exact_mod_cast hk
      calc |(k : ℚ) * 2 ^ a| = |(k : ℚ)| * 2 ^ a := by rw [abs_mul, abs_of_pos (two_zpow_pos a)]
        _ < 2 * twoTo 52 * 2 ^ a := mul_lt_mul_of_pos_right hk' (two_zpow_pos a)
        _ = twoTo 52 * 2 ^ (a + 1) := by rw [zpow_add_one₀ (by norm_num)]; ring
        _ ≤ q * 2 ^ t :=
            mul_le_mul hq (two_zpow_le (by omega)) (two_zpow_pos _).le (Nat.cast_nonneg _)
    rw [abs_lt] at hsmall
    have hqr' := mul_le_mul_of_nonneg_right hqr hpos.le
    exact ⟨fun _ => by linarith, fun hle => by linarith⟩

/-- Nothing on the grid is nearer to `v` than `w`. -/
def Closest (v w : ℚ) : Prop := ∀ q, OnGrid q → |w - v| ≤ |q - v|

theorem Closest.refl (v : ℚ) : Closest v v := by
  intro q _
  rw [sub_self, abs_zero]
  exact abs_nonneg _

theorem Closest.neg {v w : ℚ} (h : Closest v w) : Closest (-v) (-w) := by
  intro q hq
  have hneg := h (-q) hq.neg
  rw [← abs_neg (w - v), ← abs_neg (-q - v)] at hneg
  rwa [show -w - -v = -(w - v) by ring, show q - -v = -(-q - v) by ring]

/-- Rounding up or down by no more than one half of the last place is closest. -/
theorem closest_of_floor {v : ℚ} {q r : Nat} {t : Int} (hlow : (q : ℚ) * 2 ^ t ≤ v)
    (hhigh : v < (q + 1) * 2 ^ t) (hr : r = q ∨ r = q + 1)
    (hhalf : |(r : ℚ) * 2 ^ t - v| ≤ 2 ^ t / 2) (hfull : twoTo 52 ≤ q ∨ t ≤ -1074) :
    Closest v (r * 2 ^ t) := by
  intro d hd
  have hr' : (r : ℚ) * 2 ^ t = q * 2 ^ t ∨ (r : ℚ) * 2 ^ t = (q + 1) * 2 ^ t := by
    rcases hr with rfl | rfl
    · exact .inl rfl
    · exact .inr (by push_cast; rfl)
  rw [abs_le] at hhalf
  rcases le_total d v with hdv | hdv
  · -- what is below lies no higher than the multiple below
    have hd' := (faithful_of_floor hlow hhigh (.inl rfl) hfull d hd).1 hdv
    rw [abs_sub_comm d, abs_of_nonneg (sub_nonneg.mpr hdv), abs_le]
    rcases hr' with h | h <;> rw [h] at hhalf ⊢ <;> constructor <;> linarith
  · rw [abs_of_nonneg (sub_nonneg.mpr hdv), abs_le]
    rcases hlow.eq_or_lt with heq | hlt
    · rcases hr' with h | h <;> rw [h] at hhalf ⊢ <;> constructor <;> linarith
    · have hd' := (faithful_of_floor hlow hhigh (.inr ⟨rfl, hlt⟩) hfull d hd).2 hdv
      push_cast at hd'
      rcases hr' with h | h <;> rw [h] at hhalf ⊢ <;> constructor <;> linarith

/-- What rounding `v` to the grid may give. -/
structure NearestOnGrid (v w : ℚ) : Prop where
  faithful : Faithful v w
  closest : Closest v w

theorem NearestOnGrid.refl (v : ℚ) : NearestOnGrid v v := ⟨.refl v, .refl v⟩

theorem NearestOnGrid.neg {v w : ℚ} (h : NearestOnGrid v w) : NearestOnGrid (-v) (-w) :=
  ⟨h.faithful.neg, h.closest.neg⟩

/-! ## Rounding to a number -/

/-- `x` is the result `r` rounded to a number: no number lies strictly between them. -/
def IsRounding (r : ℚ) (x : Float) : Prop :=
  ∀ p : Float, p.isFinite → (value p ≤ r → p ≤ x) ∧ (r ≤ value p → x ≤ p)

/-- The largest finite number. -/
def largest : Float := Float.ofBits (UInt64.ofNat (encode false (twoTo 53 - 1) 971))

theorem parts_largest : parts largest = .finite false (twoTo 53 - 1) 971 :=
  parts_ofBits_encode ⟨by decide, by decide, .inl (by decide)⟩ (by decide) false

theorem isFinite_largest : largest.isFinite := isFinite_of_parts parts_largest

theorem value_largest : value largest = (twoTo 53 - 1 : ℕ) * 2 ^ (971 : Int) :=
  value_of_parts parts_largest

namespace IsRounding

variable {r : ℚ} {x p : Float}

theorem le (h : IsRounding r x) (hp : p.isFinite) (hle : value p ≤ r) : p ≤ x := (h p hp).1 hle

theorem ge (h : IsRounding r x) (hp : p.isFinite) (hle : r ≤ value p) : x ≤ p := (h p hp).2 hle

theorem isFinite (h : IsRounding r x) {q : Float} (hp : p.isFinite) (hq : q.isFinite)
    (hpr : value p ≤ r) (hrq : r ≤ value q) : x.isFinite :=
  isFinite_of_le_of_le hp hq (h.le hp hpr) (h.ge hq hrq)

theorem value_le (h : IsRounding r x) (hx : x.isFinite) (hp : p.isFinite) (hle : r ≤ value p) :
    value x ≤ value p :=
  (le_iff_value hx hp).mp (h.ge hp hle)

theorem le_value (h : IsRounding r x) (hx : x.isFinite) (hp : p.isFinite) (hle : value p ≤ r) :
    value p ≤ value x :=
  (le_iff_value hp hx).mp (h.le hp hle)

/-- A result between two numbers stays between them. -/
theorem between (h : IsRounding r x) {q : Float} (hp : p.isFinite) (hq : q.isFinite)
    (hpr : value p ≤ r) (hrq : r ≤ value q) :
    x.isFinite ∧ value p ≤ value x ∧ value x ≤ value q := by
  have hx := h.isFinite hp hq hpr hrq
  exact ⟨hx, h.le_value hx hp hpr, h.value_le hx hq hrq⟩

/-- A result that is a number is not rounded. -/
theorem value_eq (h : IsRounding r x) (hp : p.isFinite) (hr : r = value p) :
    x.isFinite ∧ value x = value p := by
  obtain ⟨hx, hlow, hhigh⟩ := h.between hp hp hr.ge hr.le
  exact ⟨hx, le_antisymm hhigh hlow⟩

end IsRounding

theorem isRounding_value {x : Float} (hx : x.isFinite) : IsRounding (value x) x :=
  fun _ hp => ⟨(le_iff_value hp hx).mpr, (le_iff_value hx hp).mpr⟩

theorem le_infinite {x : Float} (hx : parts x = .infinite false) {p : Float} (hp : p.isFinite) :
    p ≤ x := by
  obtain ⟨n, m, e, hp⟩ := isFinite_iff.mp hp
  rw [le_iff_compare, hx, hp, compare_finite_infinite]
  exact ⟨.lt, rfl, rfl⟩

theorem infinite_le {x : Float} (hx : parts x = .infinite true) {p : Float} (hp : p.isFinite) :
    x ≤ p := by
  obtain ⟨n, m, e, hp⟩ := isFinite_iff.mp hp
  rw [le_iff_compare, hx, hp, compare_infinite_finite]
  exact ⟨.lt, rfl, rfl⟩

/-- No finite number lies beyond the largest exponent. -/
theorem value_lt_of_overflow {m : Nat} {e : Int} (h : Canonical m e) (he : 971 < e) (p : Float) :
    |value p| < m * 2 ^ e := by
  have key : ∀ (m' : Nat) (e' : Int), Canonical m' e' → e' ≤ 971 →
      (m' : ℚ) * 2 ^ e' < m * 2 ^ e := by
    intro m' e' h' he'
    have := h.normal.resolve_right (by omega)
    have := twoTo_pos 52
    exact (magnitude_lt_iff h' h).mpr (.inl ⟨by omega, by omega⟩)
  have hzero : (0 : ℚ) < m * 2 ^ e := by
    simpa using key 0 (-1074) ⟨by decide, by decide, .inr rfl⟩ (by decide)
  cases hp : parts p with
  | nan => simpa [value, hp, Parts.value] using hzero
  | infinite negative => simpa [value, hp, Parts.value] using hzero
  | finite negative m' e' =>
    obtain ⟨h', he', -⟩ := encode_parts hp
    rw [value_of_parts hp, abs_signedValue]
    exact key m' e' h' he'

theorem isRounding_of_finite {m : Nat} {e : Int} {negative : Bool} {r : ℚ} {x : Float}
    (hx : parts x = .finite negative m e) (hr : Faithful r (signedValue negative m e)) :
    IsRounding r x := by
  intro p hp
  have hfinite := isFinite_of_parts hx
  rw [le_iff_value hp hfinite, le_iff_value hfinite hp, value_of_parts hx]
  exact hr _ (onGrid_value p)

theorem isRounding_of_overflow {m : Nat} {e : Int} (h : Canonical m e) (he : 971 < e)
    {negative : Bool} {r : ℚ} {x : Float} (hx : parts x = .infinite negative)
    (hr : Faithful r (signedValue negative m e)) : IsRounding r x := by
  intro p hp
  obtain ⟨hlow, hhigh⟩ := hr _ (onGrid_value p)
  have hlt := abs_lt.mp (value_lt_of_overflow h he p)
  cases negative
  · rw [signedValue_false] at hhigh
    exact ⟨fun _ => le_infinite hx hp, fun hle => by linarith [hhigh hle]⟩
  · rw [signedValue_true] at hlow
    exact ⟨fun hle => by linarith [hlow hle], fun _ => infinite_le hx hp⟩

/-! ## The nearest number -/

/-- `x` is the result `r` rounded to a number nearest to it. -/
structure IsNearest (r : ℚ) (x : Float) : Prop where
  isRounding : IsRounding r x
  closest : x.isFinite → ∀ p : Float, p.isFinite → |value x - r| ≤ |value p - r|

/-- A greater result is not rounded to a smaller number. -/
theorem IsNearest.value_le_of_lt {r r' : ℚ} {x x' : Float} (h : IsNearest r x)
    (h' : IsNearest r' x') (hx : x.isFinite) (hx' : x'.isFinite) (hlt : r < r') :
    value x ≤ value x' := by
  by_contra hgt
  have hpos : 0 < value x - value x' := by linarith
  -- either result lies on its own side of the middle of the two numbers
  have hr := sq_le_sq.mpr (h.closest hx x' hx')
  have hr' := sq_le_sq.mpr (h'.closest hx' x hx)
  have hlow : 0 ≤ (value x - value x') * (2 * r - (value x + value x')) := by linarith
  have hhigh : 0 ≤ (value x - value x') * (value x + value x' - 2 * r') := by linarith
  linarith [nonneg_of_mul_nonneg_right hlow hpos, nonneg_of_mul_nonneg_right hhigh hpos]

theorem isNearest_value {x : Float} (hx : x.isFinite) : IsNearest (value x) x := by
  refine ⟨isRounding_value hx, fun _ p _ => ?_⟩
  rw [sub_self, abs_zero]
  exact abs_nonneg _

/-- Packing canonical parts that are nearest to `r` gives a number nearest to it. -/
theorem isNearest_packed {m : Nat} {e : Int} (h : Canonical m e) (hpos : 0 < m) {negative : Bool}
    {r : ℚ} (hr : NearestOnGrid r (signedValue negative m e)) :
    IsNearest r (packed (.finite (signOf negative) m e hpos)) := by
  by_cases he : e ≤ 971
  · have hx := parts_packed h he negative hpos
    refine ⟨isRounding_of_finite hx hr.faithful, fun _ p _ => ?_⟩
    rw [value_of_parts hx]
    exact hr.closest _ (onGrid_value p)
  · have he' : 971 < e := by omega
    have hx := parts_packed_overflow he' negative hpos
    refine ⟨isRounding_of_overflow h he' hx hr.faithful, fun hfinite => ?_⟩
    obtain ⟨_, _, _, hp⟩ := isFinite_iff.mp hfinite
    rw [hx] at hp
    cases hp

theorem isNearest_packed_zero (negative : Bool) {r : ℚ} (hr : NearestOnGrid r 0) :
    IsNearest r (packed (.zero (signOf negative))) := by
  have hx := parts_packed_zero negative
  refine ⟨isRounding_of_finite hx (by simpa using hr.faithful), fun _ p _ => ?_⟩
  rw [value_of_parts hx, signedValue_zero]
  exact hr.closest _ (onGrid_value p)

end LoginForest.Number
