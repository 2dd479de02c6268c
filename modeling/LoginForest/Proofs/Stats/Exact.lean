/-
  Quantiles in exact arithmetic. A quantile lies between the neighbours of its position among the
  sorted values (`Between`), and so it moves with the position (`Between.le_of_le`) and no more
  values lie above it than there are places behind the position (`Between.countP_le`). With
  rational numbers, position and interpolation are exact: of values that differ from one another
  all those behind the position lie above the quantile (`countP_quantile`), and a quantile does
  not fall when its rank grows (`quantile_mono`).
-/
import LoginForest.Stats.Quantile
import Mathlib

namespace LoginForest

/-- Rational numbers, with nothing rounded. -/
instance : Scalar ℚ where
  count n := n
  less a b := a < b
  atMost a b := a ≤ b
  same a b := a = b
  isNumber _ := true
  isFinite _ := true
  precedes a b := a ≤ b
  floor x := ⌊x⌋₊
  ceiling x := ⌈x⌉₊

/-! ## Sorted values -/

section Sorted

variable {l : List ℚ} {i j : ℕ} {a b v : ℚ}

theorem le_of_getElem? (hl : l.Pairwise (· ≤ ·)) (hij : i ≤ j) (ha : l[i]? = some a)
    (hb : l[j]? = some b) : a ≤ b := by
  obtain ⟨hi, rfl⟩ := List.getElem?_eq_some_iff.mp ha
  obtain ⟨hj, rfl⟩ := List.getElem?_eq_some_iff.mp hb
  rcases hij.eq_or_lt with rfl | hlt
  · exact le_rfl
  · exact List.pairwise_iff_getElem.mp hl i j hi hj hlt

theorem le_of_mem_take (hl : l.Pairwise (· ≤ ·)) (ha : l[i]? = some a) (hv : v ∈ l.take (i + 1)) :
    v ≤ a := by
  obtain ⟨k, hk, rfl⟩ := List.mem_take_iff_getElem.mp hv
  exact le_of_getElem? hl (by omega) (List.getElem?_eq_getElem _) ha

theorem lt_of_mem_drop (hl : l.Pairwise (· < ·)) (hb : l[i]? = some b) (hij : i ≤ j)
    (hv : v ∈ l.drop (j + 1)) : b < v := by
  obtain ⟨hi, rfl⟩ := List.getElem?_eq_some_iff.mp hb
  obtain ⟨k, hk, rfl⟩ := List.mem_drop_iff_getElem.mp hv
  exact List.pairwise_iff_getElem.mp hl i _ hi _ (by omega)

end Sorted

section Count

variable {α : Type} {p : α → Bool} {l : List α} {k : ℕ}

theorem countP_le_of_take (h : ∀ v ∈ l.take k, ¬ p v) : l.countP p ≤ l.length - k := by
  rw [← List.take_append_drop k l, List.countP_append, List.countP_eq_zero.mpr h, zero_add,
    List.take_append_drop, ← List.length_drop]
  exact List.countP_le_length

theorem le_countP_of_drop (h : ∀ v ∈ l.drop k, p v) : l.length - k ≤ l.countP p := by
  rw [← List.length_drop, ← List.countP_eq_length.mpr h]
  exact (List.drop_sublist k l).countP_le

end Count

section Ascending

variable {α : Type} [Scalar α] {values : List α}

theorem perm_ascending (values : List α) : (ascending values).Perm values :=
  List.mergeSort_perm values _

theorem ascending_ne_nil (h : values ≠ []) : ascending values ≠ [] :=
  fun hnil => h (List.nil_perm.mp (hnil ▸ perm_ascending values))

end Ascending

/-! ## Positions -/

/-- `t` lies between the neighbours of the position `p`. -/
def Between (l : List ℚ) (p t : ℚ) : Prop :=
  ∃ a b, l[⌊p⌋₊]? = some a ∧ l[⌈p⌉₊]? = some b ∧ a ≤ t ∧ t ≤ b

namespace Between

variable {l : List ℚ} {p p' t t' : ℚ}

/-- What lies at a later position is no less, if it is so between the same neighbours. -/
theorem le_of_le (hl : l.Pairwise (· ≤ ·)) (h : Between l p t) (h' : Between l p' t') (hp : p ≤ p')
    (hsame : ⌊p⌋₊ = ⌊p'⌋₊ → ⌈p⌉₊ = ⌈p'⌉₊ → t ≤ t') : t ≤ t' := by
  obtain ⟨a, b, -, hb, -, htb⟩ := h
  obtain ⟨a', b', ha', -, hat', -⟩ := h'
  by_cases hapart : ⌈p⌉₊ ≤ ⌊p'⌋₊
  · exact htb.trans ((le_of_getElem? hl hapart hb ha').trans hat')
  · have hfloor := Nat.floor_le_floor hp
    have hceil := Nat.ceil_le_ceil hp
    have hstep := Nat.ceil_le_floor_add_one p
    have hstep' := Nat.ceil_le_floor_add_one p'
    exact hsame (by omega) (by omega)

theorem countP_le (hl : l.Pairwise (· ≤ ·)) (h : Between l p t) :
    l.countP (t < ·) ≤ l.length - (⌊p⌋₊ + 1) := by
  obtain ⟨a, b, ha, -, hat, -⟩ := h
  refine countP_le_of_take fun v hv => ?_
  rw [decide_eq_true_eq, not_lt]
  exact (le_of_mem_take hl ha hv).trans hat

theorem le_countP (hl : l.Pairwise (· < ·)) (h : Between l p t) :
    l.length - (⌈p⌉₊ + 1) ≤ l.countP (t < ·) := by
  obtain ⟨a, b, -, hb, -, htb⟩ := h
  refine le_countP_of_drop fun v hv => ?_
  rw [decide_eq_true_eq]
  exact htb.trans_lt (lt_of_mem_drop hl hb le_rfl hv)

end Between

/-! ## Quantiles of rational numbers -/

/-- Where the `q`-quantile of `n` values lies among them. -/
def rank (q : ℚ) (n : ℕ) : ℚ := q * (n - 1 : ℕ)

section Rank

variable {q : ℚ} {n : ℕ}

theorem rank_nonneg (h0 : 0 ≤ q) : 0 ≤ rank q n := mul_nonneg h0 (Nat.cast_nonneg _)

theorem ceil_rank_le (h1 : q ≤ 1) : ⌈rank q n⌉₊ ≤ n - 1 :=
  Nat.ceil_le.mpr (mul_le_of_le_one_left (Nat.cast_nonneg _) h1)

/-- The places behind the rank of the share that is left. -/
theorem sub_floor_rank {c : ℚ} (h0 : 0 ≤ c) (h1 : c ≤ 1) (hn : 1 ≤ n) :
    n - (⌊rank (1 - c) n⌋₊ + 1) = ⌈rank c n⌉₊ := by
  have hrest : rank (1 - c) n = (n - 1 : ℕ) - rank c n := by
    unfold rank
    ring
  have hc0 : 0 ≤ rank c n := rank_nonneg h0
  have hc1 := ceil_rank_le (n := n) h1
  have hrest0 : 0 ≤ rank (1 - c) n := rank_nonneg (by linarith)
  have hfloor : ⌊rank (1 - c) n⌋₊ = n - 1 - ⌈rank c n⌉₊ := by
    have hceil := Nat.le_ceil (rank c n)
    have hlt := Nat.ceil_lt_add_one hc0
    rw [Nat.floor_eq_iff hrest0, hrest, Nat.cast_sub hc1]
    constructor <;> linarith
  omega

theorem sub_ceil_rank {c : ℚ} (h0 : 0 ≤ c) (h1 : c ≤ 1) (hn : 1 ≤ n) :
    n - (⌈rank (1 - c) n⌉₊ + 1) = ⌊rank c n⌋₊ := by
  have hfloor := sub_floor_rank (sub_nonneg.mpr h1) (sub_le_self 1 h0) hn
  have hlast : ⌊rank c n⌋₊ ≤ n - 1 := (Nat.floor_le_ceil _).trans (ceil_rank_le h1)
  rw [sub_sub_cancel] at hfloor
  omega

end Rank

section Quantile

variable {values : List ℚ} {q q' t t' : ℚ}

theorem clampUnit_of_unit (h0 : 0 ≤ q) (h1 : q ≤ 1) : clampUnit q = q := by
  have hlow : Scalar.less q (Scalar.count 0) = false := by
    show decide (q < ((0 : ℕ) : ℚ)) = false
    rw [decide_eq_false_iff_not, Nat.cast_zero]
    exact not_lt.mpr h0
  have hhigh : Scalar.less (Scalar.count 1) q = false := by
    show decide (((1 : ℕ) : ℚ) < q) = false
    rw [decide_eq_false_iff_not, Nat.cast_one]
    exact not_lt.mpr h1
  unfold clampUnit
  dsimp only
  rw [hlow, if_neg Bool.false_ne_true, hhigh, if_neg Bool.false_ne_true]

/-- A quantile is interpolated between the neighbours of its rank. -/
theorem quantileSorted_rat {l : List ℚ} (hl : l ≠ []) (h0 : 0 ≤ q) (h1 : q ≤ 1) :
    ∃ a b, l[⌊rank q l.length⌋₊]? = some a ∧ l[⌈rank q l.length⌉₊]? = some b ∧
      quantileSorted l q =
        some (a + (b - a) * (rank q l.length - ⌊rank q l.length⌋₊)) := by
  have hlength := List.length_pos_iff.mpr hl
  have hceil := ceil_rank_le (n := l.length) h1
  have hfloor := Nat.floor_le_ceil (rank q l.length)
  obtain ⟨a, ha⟩ : ∃ a, l[⌊rank q l.length⌋₊]? = some a :=
    ⟨_, List.getElem?_eq_getElem (by omega)⟩
  obtain ⟨b, hb⟩ : ∃ b, l[⌈rank q l.length⌉₊]? = some b :=
    ⟨_, List.getElem?_eq_getElem (by omega)⟩
  refine ⟨a, b, ha, hb, ?_⟩
  have hposition : clampUnit q * Scalar.count (l.length - 1) = rank q l.length := by
    rw [clampUnit_of_unit h0 h1]
    rfl
  generalize rank q l.length = p at *
  have hends : (Scalar.floor p == Scalar.ceiling p ||
      Scalar.same (p - Scalar.count (Scalar.floor p)) (Scalar.count 0)) = true →
        a = a + (b - a) * (p - ⌊p⌋₊) := by
    intro h
    rcases Bool.or_eq_true_iff.mp h with h | h
    · have hsame : ⌊p⌋₊ = ⌈p⌉₊ := eq_of_beq h
      rw [← hsame, ha] at hb
      rw [Option.some.inj hb, sub_self, zero_mul, add_zero]
    · have hzero : p - ⌊p⌋₊ = ((0 : ℕ) : ℚ) := of_decide_eq_true h
      rw [hzero, Nat.cast_zero, mul_zero, add_zero]
  unfold quantileSorted
  dsimp only
  rw [hposition, show Scalar.floor p = ⌊p⌋₊ from rfl, show Scalar.ceiling p = ⌈p⌉₊ from rfl, ha, hb]
  refine congrArg some ?_
  split
  case isTrue h => exact hends h
  case isFalse => rfl

theorem between_quantileSorted {l : List ℚ} (hsorted : l.Pairwise (· ≤ ·)) (hl : l ≠ [])
    (h0 : 0 ≤ q) (h1 : q ≤ 1) :
    ∃ t, quantileSorted l q = some t ∧ Between l (rank q l.length) t := by
  obtain ⟨a, b, ha, hb, hquantile⟩ := quantileSorted_rat hl h0 h1
  have hab := le_of_getElem? hsorted (Nat.floor_le_ceil _) ha hb
  have hlow := Nat.floor_le (rank_nonneg (n := l.length) h0)
  have hhigh := (Nat.lt_floor_add_one (rank q l.length)).le
  refine ⟨_, hquantile, a, b, ha, hb, ?_, ?_⟩
  · exact le_add_of_nonneg_right (mul_nonneg (sub_nonneg.mpr hab) (sub_nonneg.mpr hlow))
  · have hstep := mul_le_of_le_one_right (sub_nonneg.mpr hab)
      (show rank q l.length - ⌊rank q l.length⌋₊ ≤ 1 by linarith)
    linarith

/-- What lies behind the rank of a quantile is larger, if the values differ. -/
theorem lt_of_mem_drop_rank {l : List ℚ} (hsorted : l.Pairwise (· < ·)) (hl : l ≠ []) (h0 : 0 ≤ q)
    (h1 : q ≤ 1) (ht : quantileSorted l q = some t) {v : ℚ}
    (hv : v ∈ l.drop (⌊rank q l.length⌋₊ + 1)) : t < v := by
  obtain ⟨a, b, ha, hb, hquantile⟩ := quantileSorted_rat hl h0 h1
  obtain rfl := Option.some.inj (ht.symm.trans hquantile)
  have hav : a < v := lt_of_mem_drop hsorted ha le_rfl hv
  have hbv : b ≤ v := by
    obtain ⟨k, hk, rfl⟩ := List.mem_drop_iff_getElem.mp hv
    refine le_of_getElem? (hsorted.imp le_of_lt) ?_ hb (List.getElem?_eq_getElem _)
    exact (Nat.ceil_le_floor_add_one _).trans (Nat.le_add_right _ k)
  have hlow := sub_nonneg.mpr (Nat.floor_le (rank_nonneg (n := l.length) h0))
  have hhigh := sub_lt_iff_lt_add'.mpr (Nat.lt_floor_add_one (rank q l.length))
  have hstep := mul_le_mul_of_nonneg_right (sub_le_sub_right hbv a) hlow
  have hless := mul_lt_of_lt_one_right (sub_pos.mpr hav) hhigh
  linarith

theorem pairwise_ascending (values : List ℚ) : (ascending values).Pairwise (· ≤ ·) := by
  refine (List.pairwise_mergeSort ?_ ?_ values).imp of_decide_eq_true
  · intro a b c hab hbc
    exact decide_eq_true ((of_decide_eq_true hab).trans (of_decide_eq_true hbc))
  · intro a b
    rw [Bool.or_eq_true]
    exact (le_total a b).imp decide_eq_true decide_eq_true

theorem quantile_rat (values : List ℚ) (q : ℚ) :
    quantile values q = quantileSorted (ascending values) q := by
  have hall : values.filter Scalar.isNumber = values := List.filter_eq_self.mpr fun _ _ => rfl
  rw [quantile, hall]

theorem exists_quantile (hv : values ≠ []) (h0 : 0 ≤ q) (h1 : q ≤ 1) :
    ∃ t, quantile values q = some t ∧ Between (ascending values) (rank q values.length) t := by
  have hperm := perm_ascending values
  have hne := ascending_ne_nil hv
  obtain ⟨t, ht, hbetween⟩ := between_quantileSorted (pairwise_ascending values) hne h0 h1
  rw [hperm.length_eq] at hbetween
  exact ⟨t, (quantile_rat values q).trans ht, hbetween⟩

/-- No more values lie above a quantile than there are places behind its rank. -/
theorem countP_quantile_le (hv : values ≠ []) (h0 : 0 ≤ q) (h1 : q ≤ 1)
    (ht : quantile values q = some t) :
    values.countP (t < ·) ≤ values.length - (⌊rank q values.length⌋₊ + 1) := by
  obtain ⟨t', ht', hbetween⟩ := exists_quantile hv h0 h1
  obtain rfl := Option.some.inj (ht.symm.trans ht')
  have hperm := perm_ascending values
  rw [← hperm.countP_eq, ← hperm.length_eq]
  rw [← hperm.length_eq] at hbetween
  exact hbetween.countP_le (pairwise_ascending values)

/-- Of values that differ from one another all those behind the rank lie above the quantile. -/
theorem countP_quantile (hv : values ≠ []) (hdistinct : values.Nodup) (h0 : 0 ≤ q) (h1 : q ≤ 1)
    (ht : quantile values q = some t) :
    values.countP (t < ·) = values.length - (⌊rank q values.length⌋₊ + 1) := by
  refine le_antisymm (countP_quantile_le hv h0 h1 ht) ?_
  have hperm := perm_ascending values
  have hne := ascending_ne_nil hv
  have hsorted : (ascending values).Pairwise (· < ·) :=
    (pairwise_ascending values).imp₂ (fun _ _ h h' => lt_of_le_of_ne h h')
      (hperm.nodup_iff.mpr hdistinct)
  rw [quantile_rat] at ht
  rw [← hperm.countP_eq, ← hperm.length_eq]
  refine le_countP_of_drop fun v hv => ?_
  rw [decide_eq_true_eq]
  exact lt_of_mem_drop_rank hsorted hne h0 h1 ht hv

/-- A quantile of a higher rank is no less. -/
theorem quantile_mono (hv : values ≠ []) (h0 : 0 ≤ q) (hq : q ≤ q') (h1 : q' ≤ 1)
    (ht : quantile values q = some t) (ht' : quantile values q' = some t') : t ≤ t' := by
  obtain ⟨s, hs, hbetween⟩ := exists_quantile hv h0 (hq.trans h1)
  obtain ⟨s', hs', hbetween'⟩ := exists_quantile hv (h0.trans hq) h1
  obtain rfl := Option.some.inj (ht.symm.trans hs)
  obtain rfl := Option.some.inj (ht'.symm.trans hs')
  have hsorted := pairwise_ascending values
  have hperm := perm_ascending values
  have hne := ascending_ne_nil hv
  have hrank : rank q values.length ≤ rank q' values.length :=
    mul_le_mul_of_nonneg_right hq (Nat.cast_nonneg _)
  refine hbetween.le_of_le hsorted hbetween' hrank fun hfloor hceil => ?_
  -- between the same neighbours the distance to the lower one grows
  rw [quantile_rat] at ht ht'
  obtain ⟨a, b, ha, hb, hquantile⟩ := quantileSorted_rat hne h0 (hq.trans h1)
  obtain ⟨a', b', ha', hb', hquantile'⟩ := quantileSorted_rat hne (h0.trans hq) h1
  rw [hperm.length_eq] at ha hb hquantile ha' hb' hquantile'
  rw [← hfloor] at ha' hquantile'
  rw [← hceil] at hb'
  obtain rfl := Option.some.inj (ha.symm.trans ha')
  obtain rfl := Option.some.inj (hb.symm.trans hb')
  obtain rfl := Option.some.inj (ht.symm.trans hquantile)
  obtain rfl := Option.some.inj (ht'.symm.trans hquantile')
  have hab := le_of_getElem? hsorted (Nat.floor_le_ceil _) ha hb
  have hstep := mul_le_mul_of_nonneg_left (sub_le_sub_right hrank
    (⌊rank q values.length⌋₊ : ℚ)) (sub_nonneg.mpr hab)
  linarith

end Quantile

end LoginForest
