/-
  A sample holds as many numbers as are asked for, all of them different and below the bound
  (`isSample_sample`), whatever the generator draws. Swapping keeps a list the same up to its
  order; collecting adds, at each step, a number up to the next one that is not taken; and drawing
  again ends with a number that is not taken, as long as there is one.
-/
import LoginForest.Random.Sample
import Mathlib.Data.List.Perm.Subperm
import Mathlib.Data.List.Range

namespace LoginForest.Random

/-- The list holds `k` different numbers below `n`. -/
structure IsSample (n k : Nat) (numbers : List Nat) : Prop where
  length : numbers.length = k
  nodup : numbers.Nodup
  lt : ∀ i ∈ numbers, i < n

namespace IsSample

variable {n k : Nat} {numbers numbers' : List Nat}

theorem nil (n : Nat) : IsSample n 0 [] := ⟨rfl, List.nodup_nil, by simp⟩

theorem range (n : Nat) : IsSample n n (List.range n) :=
  ⟨List.length_range, List.nodup_range, fun _ h => List.mem_range.mp h⟩

theorem perm (h : IsSample n k numbers) (hperm : numbers'.Perm numbers) : IsSample n k numbers' :=
  ⟨hperm.length_eq.trans h.length, hperm.nodup_iff.mpr h.nodup, fun i hi =>
    h.lt i (hperm.mem_iff.mp hi)⟩

/-- One more number, below a bound that may be larger. -/
theorem cons (h : IsSample n k numbers) {i n' : Nat} (hi : i ∉ numbers) (hlt : i < n')
    (hn : n ≤ n') : IsSample n' (k + 1) (i :: numbers) := by
  refine ⟨congrArg (· + 1) h.length, List.nodup_cons.mpr ⟨hi, h.nodup⟩, fun j hj => ?_⟩
  rcases List.mem_cons.mp hj with rfl | hj
  · exact hlt
  · exact (h.lt j hj).trans_le hn

theorem take (h : IsSample n k numbers) {m : Nat} (hm : m ≤ k) :
    IsSample n m (numbers.take m) := by
  refine ⟨?_, h.nodup.sublist (List.take_sublist m numbers), fun i hi =>
    h.lt i (List.mem_of_mem_take hi)⟩
  rw [List.length_take, h.length, Nat.min_eq_left hm]

end IsSample

/-! ## Swapping -/

theorem perm_swapIfInBounds (numbers : Array Nat) (i j : Nat) :
    (numbers.swapIfInBounds i j).toList.Perm numbers.toList := by
  rw [Array.swapIfInBounds_def]
  split
  · split
    · exact (Array.swap_perm _ _).toList
    · exact .refl _
  · exact .refl _

theorem perm_swapForward (n k i : Nat) (numbers : Array Nat) (g : Generator) :
    (swapForward n k i numbers g).1.toList.Perm numbers.toList := by
  induction k generalizing i numbers g with
  | zero => exact .refl _
  | succ k ih =>
    unfold swapForward
    exact (ih _ _ _).trans (perm_swapIfInBounds ..)

theorem perm_swapBackward (i : Nat) (numbers : Array Nat) (g : Generator) :
    (swapBackward i numbers g).1.toList.Perm numbers.toList := by
  induction i generalizing numbers g with
  | zero => exact .refl _
  | succ i ih =>
    unfold swapBackward
    exact (ih _ _).trans (perm_swapIfInBounds ..)

theorem isSample_sampleBySwaps {n k : Nat} (h : k ≤ n) (g : Generator) :
    IsSample n k (sampleBySwaps n k g).1 := by
  have hperm := perm_swapForward n k 0 (Array.range n) g
  rw [Array.toList_range] at hperm
  exact ((IsSample.range n).perm hperm).take h

/-! ## Collecting -/

theorem perm_insertBefore {t j : Nat} {taken : List Nat} (h : t ∈ taken) :
    (insertBefore t j taken).Perm (j :: taken) := by
  induction taken with
  | nil => cases h
  | cons x xs ih =>
    unfold insertBefore
    split
    case isTrue => exact .refl _
    case isFalse hne =>
      have hmem : t ∈ xs := (List.mem_cons.mp h).resolve_left (Ne.symm hne)
      exact ((ih hmem).cons x).trans (.swap j x xs)

/-- A step adds a number up to `j` that was not taken: the drawn one, or `j` itself. -/
theorem isSample_collectStep {j k t : Nat} {taken : List Nat} (h : IsSample j k taken)
    (ht : t < j + 1) (mixed : Bool) : IsSample (j + 1) (k + 1)
      (if taken.contains t then
        if mixed then insertBefore t j taken else taken ++ [j]
      else taken ++ [t]) := by
  have hj : j ∉ taken := fun hmem => Nat.lt_irrefl j (h.lt j hmem)
  have hself := h.cons hj (Nat.lt_succ_self j) (Nat.le_succ j)
  split
  case isTrue hmem =>
    split
    · exact hself.perm (perm_insertBefore (List.contains_iff_mem.mp hmem))
    · exact hself.perm (List.perm_append_singleton j taken)
  case isFalse hmem =>
    have ht' : t ∉ taken := fun hin => hmem (List.contains_iff_mem.mpr hin)
    exact (h.cons ht' ht (Nat.le_succ j)).perm (List.perm_append_singleton t taken)

theorem isSample_collect (mixed : Bool) (k : Nat) {j m : Nat} {taken : List Nat} (g : Generator)
    (h : IsSample j m taken) : IsSample (j + k) (m + k) (collect mixed k j taken g).1 := by
  induction k generalizing j m taken g with
  | zero => exact h
  | succ k ih =>
    have ht := g.below_lt (Nat.succ_pos j) .half
    have hrest := ih (g.below .half (j + 1)).2 (isSample_collectStep h ht mixed)
    rw [Nat.add_right_comm j, Nat.add_right_comm m] at hrest
    exact hrest

theorem isSample_sampleByCollecting {n k : Nat} (h : k ≤ n) (g : Generator) :
    IsSample n k (sampleByCollecting n k g).1 := by
  have hcollect : ∀ mixed, IsSample n k (collect mixed k (n - k) [] g).1 := by
    intro mixed
    have hall := isSample_collect mixed k g (IsSample.nil (n - k))
    rwa [Nat.sub_add_cancel h, Nat.zero_add] at hall
  unfold sampleByCollecting
  split
  · exact hcollect true
  · exact (hcollect false).perm
      (perm_swapBackward _ (collect false k (n - k) [] g).1.toArray _)

/-! ## Drawing again -/

/-- Some number below the bound is not among fewer different ones. -/
theorem exists_fresh {n k : Nat} {taken : List Nat} (h : IsSample n k taken) (hk : k < n) :
    ∃ t, (List.range n).find? (fun t => !taken.contains t) = some t := by
  rw [← Option.isSome_iff_exists, List.find?_isSome]
  by_contra hall
  have hsub : List.range n ⊆ taken := by
    intro t ht
    by_contra hmem
    exact hall ⟨t, ht, by simpa using hmem⟩
  have hle := (List.nodup_range.subperm hsub).length_le
  rw [List.length_range, h.length] at hle
  omega

theorem drawFresh_spec {n k : Nat} {taken : List Nat} (h : IsSample n k taken) (hk : k < n)
    (w : Generator.Width) (draws : Nat) (g : Generator) :
    (drawFresh w n taken draws g).1 < n ∧ (drawFresh w n taken draws g).1 ∉ taken := by
  induction draws generalizing g with
  | zero =>
    obtain ⟨t, ht⟩ := exists_fresh h hk
    have hmem := List.mem_range.mp (List.mem_of_find?_eq_some ht)
    have hfresh := List.find?_some ht
    unfold drawFresh
    rw [ht]
    exact ⟨hmem, by simpa using hfresh⟩
  | succ draws ih =>
    have hlt := Generator.drawBelow_lt (Nat.zero_lt_of_lt hk) w (Generator.widestZone w n)
      Generator.drawLimit g
    unfold drawFresh
    dsimp only
    split
    case isTrue => exact ih _
    case isFalse hmem => exact ⟨hlt, fun hin => hmem (List.contains_iff_mem.mpr hin)⟩

theorem isSample_sampleByRejection (w : Generator.Width) {n m : Nat} (k : Nat) {taken : List Nat}
    (h : IsSample n m taken) (hk : m + k ≤ n) (g : Generator) :
    IsSample n (m + k) (sampleByRejection w n k taken g).1 := by
  induction k generalizing m taken g with
  | zero => exact h.perm (List.reverse_perm taken)
  | succ k ih =>
    obtain ⟨hlt, hfresh⟩ := drawFresh_spec h (by omega) w Generator.drawLimit g
    have hrest := ih (h.cons hfresh hlt le_rfl) (by omega)
      (drawFresh w n taken Generator.drawLimit g).2
    rw [Nat.add_right_comm m] at hrest
    exact hrest

/-! ## All methods -/

/-- A sample of `k` numbers below `n`, where `k` is at most `n`, holds `k` different ones. -/
theorem isSample_sample {n k : Nat} (h : k ≤ n) (g : Generator) :
    IsSample n k (sample n k g).1 := by
  have hrejection : ∀ w, IsSample n k (sampleByRejection w n k [] g).1 := by
    intro w
    have hall := isSample_sampleByRejection w k (IsSample.nil n) (by omega) g
    rwa [Nat.zero_add] at hall
  unfold sample
  split
  · exact hrejection .full
  · split
    · exact isSample_sampleBySwaps h g
    · exact isSample_sampleByCollecting h g
    · exact hrejection .half

end LoginForest.Random
