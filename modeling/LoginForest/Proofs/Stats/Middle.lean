/-
  The middle of a column. The position of the median is half of a whole number and is not rounded,
  so the median of an odd number of values is the one in the middle, and of an even number it is
  interpolated half way between the two in the middle (`isMiddle`). The values of a column that are
  missing or not finite do not count.
-/
import LoginForest.Features
import LoginForest.Proofs.Stats.Ranked

namespace LoginForest

open Number

/-! ## Half way through a list -/

section Half

theorem isShare_half : IsShare half := by
  obtain ⟨hfinite, hvalue⟩ := isFinite_half
  exact ⟨hfinite, by rw [hvalue]; norm_num, by rw [hvalue]; norm_num⟩

variable {n : Nat}

theorem isFinite_ofNat_pred (hn : n ≤ 2 ^ 64) : (ofNat (n - 1)).isFinite :=
  (within_ofNat (k := 64) (by omega) (by decide)).1

theorem roundedRank_half (hn : n ≤ 2 ^ 53) :
    roundedRank half n = (n - 1 : ℕ) / 2 := by
  have hlt : n - 1 < twoTo 53 := by
    have h53 : twoTo 53 = 2 ^ 53 := by decide
    omega
  have hround := position_half (isFinite_ofNat_pred (n := n) (by omega))
  rw [(value_ofNat hlt).2] at hround
  exact (hround.exact (e := -1) hlt (by decide) (by decide) (by rw [zpow_neg_one]; rfl)).2

/-- Half way between two places nothing is rounded. -/
theorem fraction_position_half (hn : n ≤ 2 ^ 64)
    (hne : ⌊roundedRank half n⌋₊ ≠ ⌈roundedRank half n⌉₊) :
    fraction (position half (n - 1)) = half := by
  have hcount := isFinite_ofNat_pred hn
  obtain ⟨hp, hp0, -⟩ := position_le isShare_half hcount
  have hapart : wholePart (position half (n - 1)) ≠ wholeAbove (position half (n - 1)) := by
    rwa [wholePart_eq_floor hp hp0, wholeAbove_eq_ceil hp hp0]
  obtain ⟨hfinite, hvalue⟩ := fraction_half hcount hapart
  refine eq_of_value_eq hfinite isFinite_half.1 (hvalue.trans isFinite_half.2.symm) ?_
  rw [hvalue]
  norm_num

end Half

/-! ## The middle of some values -/

/-- `m` is the value in the middle, or half way between the two in the middle; zero of no values.
The places of up to `2 ^ 53` values are numbers. -/
structure IsMiddle (values : List Float) (m : Float) : Prop where
  empty : values = [] → m = ofNat 0
  median : values ≠ [] → median values = some m
  ranked : values.length ≤ 2 ^ 53 → ∃ sorted : List Float, sorted.Perm values ∧
    (sorted.map value).Pairwise (· ≤ ·) ∧ ∀ k,
      (values.length = 2 * k + 1 → sorted[k]? = some m) ∧
      (values.length = 2 * k + 2 → ∃ a b, sorted[k]? = some a ∧ sorted[k + 1]? = some b ∧
        m = interpolate a b half)

section Values

variable {values : List Float}

theorem median_nil : median ([] : List Float) = none := by
  simp [median, quantile, ascending, quantileSorted]

/-- The median is the value at its position, or half way between the neighbours. -/
theorem median_eq (h : ∀ x ∈ values, x.isFinite) (hne : values ≠ [])
    (hlength : values.length ≤ 2 ^ 64) : ∃ a b,
      (ascending values)[⌊roundedRank half values.length⌋₊]? = some a ∧
      (ascending values)[⌈roundedRank half values.length⌉₊]? = some b ∧
      median values = some
        (if ⌊roundedRank half values.length⌋₊ = ⌈roundedRank half values.length⌉₊ then a
        else interpolate a b half) := by
  rw [← length_ascending values] at hlength ⊢
  obtain ⟨a, b, ha, hb, hquantile⟩ := quantileSorted_float (ascending_ne_nil hne)
    (isFinite_ofNat_pred hlength) isShare_half
  refine ⟨a, b, ha, hb, ?_⟩
  rw [median, quantile, filter_isNumber h, hquantile]
  split
  case isTrue => rfl
  case isFalse hapart => rw [fraction_position_half hlength hapart]

theorem isMiddle (h : ∀ x ∈ values, x.isFinite) (hlength : values.length ≤ 2 ^ 64) :
    IsMiddle values ((median values).getD (ofNat 0)) := by
  by_cases hne : values = []
  · subst hne
    refine ⟨fun _ => by rw [median_nil]; rfl, fun hne => absurd rfl hne, fun _ =>
      ⟨[], .nil, .nil, fun k => ⟨fun hk => ?_, fun hk => ?_⟩⟩⟩
    · exact absurd hk.symm (Nat.succ_ne_zero _)
    · exact absurd hk.symm (Nat.succ_ne_zero _)
  obtain ⟨a, b, ha, hb, hmedian⟩ := median_eq h hne hlength
  rw [hmedian, Option.getD_some]
  refine ⟨fun hnil => absurd hnil hne, fun _ => hmedian, fun hn => ?_⟩
  have hrank := roundedRank_half hn
  refine ⟨ascending values, perm_ascending values, pairwise_ascending_value h, fun k =>
    ⟨fun hk => ?_, fun hk => ?_⟩⟩
  · have hwhole : roundedRank half values.length = k := by
      rw [hrank, hk, Nat.add_sub_cancel]
      push_cast
      ring
    rw [hwhole, Nat.floor_natCast] at ha
    rw [hwhole, Nat.floor_natCast, Nat.ceil_natCast, if_pos rfl]
    exact ha
  · have hhalf : roundedRank half values.length = k + 1 / 2 := by
      rw [hrank, hk, show 2 * k + 2 - 1 = 2 * k + 1 by omega]
      push_cast
      ring
    have hfloor : ⌊roundedRank half values.length⌋₊ = k := by
      rw [hhalf, Nat.floor_eq_iff (by positivity)]
      constructor <;> linarith
    have hceil : ⌈roundedRank half values.length⌉₊ = k + 1 := by
      rw [hhalf, Nat.ceil_eq_iff (Nat.succ_ne_zero k)]
      push_cast
      constructor <;> linarith
    rw [hfloor] at ha
    rw [hceil] at hb
    rw [hfloor, hceil, if_neg (Nat.succ_ne_self k).symm]
    exact ⟨a, b, ha, hb, rfl⟩

end Values

/-! ## Columns -/

/-- The values of a column that count. -/
theorem filterMap_finite? (column : List (Option Float)) :
    column.filterMap finite? = column.reduceOption.filter Float.isFinite := by
  rw [List.reduceOption, List.filter_filterMap]
  rfl

/-- What stands in for a missing coordinate is the middle of those that are finite. -/
theorem isMiddle_middle {column : List (Option Float)} (hlength : column.length ≤ 2 ^ 64) :
    IsMiddle (column.reduceOption.filter Float.isFinite) (middle column) := by
  rw [middle, filterMap_finite?]
  refine isMiddle (fun x hx => (List.mem_filter.mp hx).2) ?_
  exact (List.length_filter_le ..).trans ((List.reduceOption_length_le column).trans hlength)

end LoginForest
