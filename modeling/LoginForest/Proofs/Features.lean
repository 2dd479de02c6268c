/-
  Features are finite. A coordinate is finite or a median of finite ones stands in for it, an
  address has 128 bits at most, and the share of a text is a quotient of counts of which the
  second is not zero (`isFinite_features`).
-/
import LoginForest.Features
import LoginForest.Proofs.Address
import LoginForest.Proofs.Stats.Frequency
import LoginForest.Proofs.Stats.Quantile

namespace LoginForest

open Number

/-! ## Addresses and coordinates -/

theorem Address.feature_within [Elementary] [Elementary.Lawful] (s : Option String) :
    Within 128 (Address.feature s).1 := by
  have hzero : Within 128 (ofNat 0) := within_ofNat (k := 128) (by decide) (by decide)
  cases s with
  | none => exact hzero
  | some s =>
    rw [feature]
    split
    case isTrue => exact hzero
    case isFalse =>
      cases hread : read? s with
      | none => exact hzero
      | some a =>
        have hvalue : Within 128 (ofNat a.value) := within_ofNat (value_lt hread).le (by decide)
        obtain ⟨hlog, hlog0, hlogle⟩ := spec_of_bounds hvalue.1
          (Elementary.Lawful.log1p_bounds _ hvalue.1 (zero_le_ofNat a.value))
        refine ⟨hlog, ?_⟩
        rw [abs_of_nonneg hlog0]
        exact hlogle.trans ((le_abs_self _).trans hvalue.2)

theorem isFinite_middle {column : List (Option Float)} (hlength : column.length ≤ 2 ^ 60) :
    (middle column).isFinite := by
  have hfinite : ∀ x ∈ column.filterMap finite?, x.isFinite := by
    intro x hx
    obtain ⟨y, -, hy⟩ := List.mem_filterMap.mp hx
    rw [finite?, Option.filter_eq_some_iff] at hy
    exact hy.2
  unfold middle median quantile
  rw [filter_isNumber hfinite]
  exact isFinite_columnMedian hfinite ((List.length_filterMap_le ..).trans hlength)

theorem isFinite_coordinate (x : Option Float) {b : Float} (hb : b.isFinite) :
    ((finite? x).getD b).isFinite := by
  cases hx : finite? x with
  | none => exact hb
  | some y =>
    rw [finite?, Option.filter_eq_some_iff] at hx
    exact hx.2

/-- Stand-ins for coordinates that are not large are not large either. -/
theorem middle_within {k : Int} (hlow : 0 ≤ k) (hhigh : k ≤ 900) {column : List (Option Float)}
    (h : ∀ x ∈ column.filterMap finite?, Within k x) (hlength : column.length ≤ 2 ^ 60) :
    Within (k + 63) (middle column) := by
  unfold middle median quantile
  rw [filter_isNumber fun x hx => (h x hx).1]
  exact columnQuantile_within hlow hhigh h ((List.length_filterMap_le ..).trans hlength)
    isFinite_half.1

/-! ## Rows -/

section Rows

variable [Elementary] [Elementary.Lawful] {attempts : List Attempt}

/-- The features after the coordinates are never large. -/
theorem features_within (hlength : attempts.length ≤ 2 ^ 60) (a : Attempt) :
    ∀ x ∈ (a.features (.ofAttempts attempts)).drop 2, Within 128 x := by
  intro x hx
  have hhour := a.time.clock.hour_lt
  have hweekday := a.time.date.weekday_lt
  have hmonth := a.time.date.month_le
  have hcount : ∀ n, n ≤ 2 ^ 60 → Within 128 (ofNat n) := fun n hn =>
    (within_ofNat hn (by decide)).mono (by decide)
  have hshare : ∀ column : List (Option String), column.length = attempts.length →
      ∀ s, Within 128 ((Frequency.ofColumn column).share s) := fun column hcolumn s =>
    (Frequency.share_within (hcolumn ▸ hlength) s).mono (by decide)
  simp only [Attempt.features, List.drop_succ_cons, List.drop_zero, List.mem_cons,
    List.not_mem_nil, or_false] at hx
  rcases hx with rfl | rfl | rfl | rfl | rfl | rfl | rfl | rfl
  · exact hcount _ (by omega)
  · exact hcount _ (by omega)
  · exact hcount _ (by omega)
  · exact hcount _ (by split <;> decide)
  · exact Address.feature_within _
  · exact hshare _ (List.length_map _) _
  · exact hshare _ (List.length_map _) _
  · exact hshare _ (List.length_map _) _

/-- Every feature of every attempt is finite. -/
theorem isFinite_features (hlength : attempts.length ≤ 2 ^ 60) :
    ∀ row ∈ (Features.ofAttempts attempts).matrix.rows, ∀ x ∈ row, x.isFinite := by
  intro row hrow x hx
  obtain ⟨a, -, rfl⟩ := List.mem_map.mp hrow
  rcases List.mem_cons.mp hx with rfl | hx
  · exact isFinite_coordinate _ (isFinite_middle (by rwa [List.length_map]))
  · rcases List.mem_cons.mp hx with rfl | hx
    · exact isFinite_coordinate _ (isFinite_middle (by rwa [List.length_map]))
    · exact (features_within hlength a x hx).1

end Rows

end LoginForest
