/-
  Statistics do not depend on the order of their values. A list in some order has one ascending
  form, as values that are of one rank are the same: numbers have different places, and texts are
  equal if neither comes first. Medians, quantiles and frequencies are read off this form.
-/
import LoginForest.Features
import LoginForest.Proofs.Number.Parts
import LoginForest.Proofs.Stats.Frequency
import LoginForest.Scaler

namespace LoginForest

/-- Sorting by an order that tells all values apart gives one list for all orders. -/
theorem mergeSort_eq_of_perm {α : Type} {le : α → α → Bool}
    (trans : ∀ a b c, le a b → le b c → le a c) (total : ∀ a b, le a b || le b a)
    (antisymm : ∀ a b, le a b → le b a → a = b) {l l' : List α} (h : l'.Perm l) :
    l'.mergeSort le = l.mergeSort le := by
  have hperm : (l'.mergeSort le).Perm (l.mergeSort le) :=
    (List.mergeSort_perm l' le).trans (h.trans (List.mergeSort_perm l le).symm)
  exact hperm.eq_of_pairwise (fun a b _ _ => antisymm a b)
    (List.pairwise_mergeSort trans total l') (List.pairwise_mergeSort trans total l)

/-! ## Numbers -/

namespace Number

/-- Different numbers have different places. -/
theorem place_inj {x y : Float} (h : place x = place y) : x = y := by
  have hx := x.toBits.toNat_lt
  have hy := y.toBits.toNat_lt
  have h63 : twoTo 63 = 2 ^ 63 := by decide
  have h64 : twoTo 64 = 2 ^ 64 := by decide
  refine eq_of_toBits_eq ?_
  unfold place at h
  dsimp only at h
  rw [h63, h64] at h
  split at h <;> split at h <;> omega

end Number

section Quantiles

variable {values values' : List Float}

theorem precedes_trans (a b c : Float) (hab : Scalar.precedes a b) (hbc : Scalar.precedes b c) :
    Scalar.precedes a c :=
  decide_eq_true ((of_decide_eq_true hab).trans (of_decide_eq_true hbc))

theorem precedes_total (a b : Float) : Scalar.precedes a b || Scalar.precedes b a := by
  rw [Bool.or_eq_true]
  exact (Nat.le_total (Number.place a) (Number.place b)).imp decide_eq_true decide_eq_true

theorem ascending_eq_of_perm (h : values'.Perm values) : ascending values' = ascending values := by
  refine mergeSort_eq_of_perm precedes_trans precedes_total ?_ h
  intro a b hab hba
  exact Number.place_inj (Nat.le_antisymm (of_decide_eq_true hab) (of_decide_eq_true hba))

/-- Sorting by insertion gives the same list. Other than sorting by halves, it recurs on the list
itself, and so it is computed when a closed term is evaluated. -/
theorem ascending_eq_insertionSort (values : List Float) :
    ascending values = values.insertionSort fun a b => Number.place a ≤ Number.place b := by
  have total : Std.Total fun a b : Float => Number.place a ≤ Number.place b :=
    ⟨fun a b => Nat.le_total _ _⟩
  have trans : IsTrans Float fun a b => Number.place a ≤ Number.place b :=
    ⟨fun a b c => Nat.le_trans⟩
  have antisymm : Std.Antisymm fun a b : Float => Number.place a ≤ Number.place b :=
    ⟨fun a b hab hba => Number.place_inj (Nat.le_antisymm hab hba)⟩
  exact List.mergeSort_eq_insertionSort _ values

theorem quantile_eq_of_perm (h : values'.Perm values) (q : Float) :
    quantile values' q = quantile values q := by
  unfold quantile
  rw [ascending_eq_of_perm (h.filter _)]

theorem columnStats_eq_of_perm (lower upper : Float) (h : values'.Perm values) :
    Scaling.columnStats lower upper values' = Scaling.columnStats lower upper values := by
  unfold Scaling.columnStats
  rw [ascending_eq_of_perm h]

end Quantiles

theorem middle_eq_of_perm {column column' : List (Option Float)} (h : column'.Perm column) :
    middle column' = middle column := by
  unfold middle median
  rw [quantile_eq_of_perm (h.filterMap _)]

/-! ## Texts -/

theorem Frequency.ofColumn_eq_of_perm {column column' : List (Option String)}
    (h : column'.Perm column) : ofColumn column' = ofColumn column := by
  have hperm : (sorted column').Perm (sorted column) :=
    (List.mergeSort_perm _ _).trans ((h.filterMap id).trans (List.mergeSort_perm _ _).symm)
  have hsorted := hperm.eq_of_pairwise' (pairwise_sorted column') (pairwise_sorted column)
  exact congrArg (fun texts => Frequency.mk (runs texts)) hsorted

/-! ## What is fitted to them -/

/-- The medians and the frequencies of attempts. -/
theorem Background.ofAttempts_eq_of_perm {attempts attempts' : List Attempt}
    (h : attempts'.Perm attempts) : ofAttempts attempts' = ofAttempts attempts := by
  unfold ofAttempts
  rw [middle_eq_of_perm (h.map (·.latitude)), middle_eq_of_perm (h.map (·.longitude)),
    Frequency.ofColumn_eq_of_perm (h.map (·.country)),
    Frequency.ofColumn_eq_of_perm (h.map (·.city)),
    Frequency.ofColumn_eq_of_perm (h.map (·.network))]

section Scalers

variable {x y : Matrix Float}

theorem Scaling.ofMatrix_eq_of_perm (lower upper : Float) (hwidth : y.width = x.width)
    (h : y.rows.Perm x.rows) : ofMatrix lower upper y = ofMatrix lower upper x := by
  unfold ofMatrix
  rw [hwidth]
  dsimp only
  congr 1
  refine List.map_congr_left fun j _ => ?_
  exact columnStats_eq_of_perm _ _ (h.filterMap _)

/-- A scaler is fitted to the same statistics, or not at all. -/
theorem Scaler.fit_eq_of_perm (s : Scaler) (hwidth : y.width = x.width)
    (h : y.rows.Perm x.rows) : s.fit y = s.fit x := by
  have hheight : y.height = x.height := h.length_eq
  unfold Scaler.fit Scaling.fit
  rw [Scaling.ofMatrix_eq_of_perm _ _ hwidth h, hheight]

end Scalers

end LoginForest
