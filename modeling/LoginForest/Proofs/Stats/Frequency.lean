/-
  Frequencies count texts. The runs of equal texts in a sorted column, written out again, are the
  column (`expand_runs`), and no two of them are of one text (`nodup_keys`); so a table has just one
  entry for each text of the column, which is the number of its occurrences (`mem_counts`). A share
  is the quotient of this number and the largest one (`share_eq`): it is never zero, and one for the
  most frequent texts (`share_pos`, `share_most`).
-/
import LoginForest.Proofs.Number.Monotone
import LoginForest.Stats.Frequency
import Mathlib

namespace LoginForest.Frequency

open Number

/-! ## Runs of equal texts -/

/-- The texts that runs stand for. -/
def expand (runs : List (String × Nat)) : List String :=
  runs.flatMap fun c => List.replicate c.2 c.1

/-- The runs of equal texts in a list. -/
def runs (texts : List String) : List (String × Nat) :=
  (texts.splitBy (· == ·)).filterMap run?

/-- Every group of equal texts is what its run stands for. -/
theorem map_runs (texts : List String) :
    (runs texts).map (fun c => List.replicate c.2 c.1) = texts.splitBy (· == ·) := by
  have hgroups : ∀ group ∈ texts.splitBy (· == ·), ∃ s n, group = List.replicate (n + 1) s := by
    intro group hgroup
    have hchain := (List.isChain_of_mem_splitBy hgroup).imp fun _ _ => eq_of_beq
    cases group with
    | nil => exact absurd hgroup (List.nil_notMem_splitBy _ _)
    | cons s rest =>
      refine ⟨s, rest.length, ?_⟩
      rw [List.replicate_succ, ← List.isChain_cons_eq_iff_eq_replicate.mp hchain]
  unfold runs
  generalize texts.splitBy (· == ·) = groups at hgroups
  induction groups with
  | nil => rfl
  | cons group groups ih =>
    obtain ⟨s, n, rfl⟩ := hgroups group List.mem_cons_self
    have hrun : run? (List.replicate (n + 1) s) = some (s, n + 1) := by
      rw [List.replicate_succ, run?, List.length_replicate]
    rw [List.filterMap_cons_some hrun, List.map_cons,
      ih fun group' h => hgroups group' (List.mem_cons_of_mem _ h)]

theorem expand_runs (texts : List String) : expand (runs texts) = texts := by
  rw [expand, List.flatMap_def, map_runs, List.flatten_splitBy]

theorem runs_pos {texts : List String} {c : String × Nat} (h : c ∈ runs texts) : 0 < c.2 := by
  obtain ⟨group, -, hrun⟩ := List.mem_filterMap.mp h
  cases group with
  | nil => cases hrun
  | cons s rest =>
    obtain rfl := Option.some.inj hrun
    exact Nat.succ_pos _

/-- Neighbouring runs are of different texts. -/
theorem isChain_runs (texts : List String) :
    (runs texts).IsChain fun c d => c.1 ≠ d.1 := by
  have hchain := List.isChain_getLast_head_splitBy (· == ·) texts
  rw [← map_runs, List.isChain_map] at hchain
  refine hchain.imp fun c d ⟨hc, hd, hne⟩ => ?_
  rw [List.getLast_replicate, List.head_replicate] at hne
  exact ne_of_beq_false hne

theorem nodup_keys {texts : List String} (h : texts.Pairwise (· ≤ ·)) :
    ((runs texts).map Prod.fst).Nodup := by
  have hle : (runs texts).Pairwise fun c d => c.1 ≤ d.1 := by
    rw [← expand_runs texts, expand, List.pairwise_flatMap] at h
    refine h.2.imp_of_mem fun hc hd hcd => ?_
    exact hcd _ (List.mem_replicate.mpr ⟨(runs_pos hc).ne', rfl⟩) _
      (List.mem_replicate.mpr ⟨(runs_pos hd).ne', rfl⟩)
  have hlt : ((runs texts).map Prod.fst).IsChain (· < ·) := by
    rw [List.isChain_map, List.isChain_iff_getElem]
    intro i hi
    exact lt_of_le_of_ne (hle.isChain.getElem i hi) ((isChain_runs texts).getElem i hi)
  exact hlt.pairwise.imp ne_of_lt

theorem mem_keys_of_mem_expand {cs : List (String × Nat)} {s : String} (h : s ∈ expand cs) :
    s ∈ cs.map Prod.fst := by
  obtain ⟨c, hc, hs⟩ := List.mem_flatMap.mp h
  rw [(List.mem_replicate.mp hs).2]
  exact List.mem_map_of_mem hc

/-- Where no two runs are of one text, the length of a run is the number of its occurrences. -/
theorem count_expand {cs : List (String × Nat)} (hnodup : (cs.map Prod.fst).Nodup)
    {c : String × Nat} (h : c ∈ cs) : (expand cs).count c.1 = c.2 := by
  induction cs with
  | nil => cases h
  | cons d cs ih =>
    rw [List.map_cons, List.nodup_cons] at hnodup
    have hcons : (expand (d :: cs)).count c.1 =
        (if d.1 = c.1 then d.2 else 0) + (expand cs).count c.1 := by
      rw [expand, List.flatMap_cons, List.count_append, List.count_replicate, expand]
      simp only [beq_iff_eq]
    rw [hcons]
    rcases List.mem_cons.mp h with rfl | h
    · rw [if_pos rfl, List.count_eq_zero.mpr (mt mem_keys_of_mem_expand hnodup.1), Nat.add_zero]
    · have hne : d.1 ≠ c.1 := fun heq => hnodup.1 (heq ▸ List.mem_map_of_mem h)
      rw [if_neg hne, Nat.zero_add, ih hnodup.2 h]

/-! ## Tables -/

section Tables

variable {column : List (Option String)} {s : String} {n : Nat}

/-- The texts of a column in ascending order. -/
def sorted (column : List (Option String)) : List String :=
  (column.filterMap id).mergeSort fun a b => decide (a ≤ b)

theorem counts_eq (column : List (Option String)) :
    (ofColumn column).counts = runs (sorted column) := rfl

theorem pairwise_sorted (column : List (Option String)) : (sorted column).Pairwise (· ≤ ·) :=
  List.pairwise_mergeSort' (· ≤ ·) _

theorem count_sorted (column : List (Option String)) (s : String) :
    (sorted column).count s = column.count (some s) := by
  unfold sorted
  rw [(List.mergeSort_perm _ _).count_eq, List.count, List.count, List.countP_filterMap]
  refine List.countP_congr fun o _ => ?_
  cases o <;> simp

/-- No text has two entries. -/
theorem nodup_counts (column : List (Option String)) :
    ((ofColumn column).counts.map Prod.fst).Nodup :=
  nodup_keys (pairwise_sorted column)

/-- The entries are the texts of the column, each with the number of its occurrences. -/
theorem mem_counts : (s, n) ∈ (ofColumn column).counts ↔
    some s ∈ column ∧ n = column.count (some s) := by
  have hcount : ∀ c ∈ (ofColumn column).counts, column.count (some c.1) = c.2 := by
    intro c hc
    rw [← count_sorted, ← count_expand (nodup_counts column) hc, counts_eq, expand_runs]
  constructor
  · intro h
    have hn := hcount _ h
    refine ⟨?_, hn.symm⟩
    rw [← List.count_pos_iff, hn]
    exact runs_pos h
  · rintro ⟨hs, rfl⟩
    have hmem : s ∈ expand (ofColumn column).counts := by
      rwa [counts_eq, expand_runs, ← List.count_pos_iff, count_sorted, List.count_pos_iff]
    obtain ⟨c, hc, rfl⟩ := List.mem_map.mp (mem_keys_of_mem_expand hmem)
    rw [hcount c hc]
    exact hc

/-- There are as many entries as different texts. -/
theorem size_ofColumn (column : List (Option String)) :
    (ofColumn column).size = column.reduceOption.toFinset.card := by
  have hkeys : ((ofColumn column).counts.map Prod.fst).toFinset =
      column.reduceOption.toFinset := by
    ext s
    rw [List.mem_toFinset, List.mem_toFinset, List.reduceOption_mem_iff, List.mem_map]
    constructor
    · rintro ⟨c, hc, rfl⟩
      exact (mem_counts.mp hc).1
    · intro hs
      exact ⟨_, mem_counts.mpr ⟨hs, rfl⟩, rfl⟩
  rw [← hkeys, List.toFinset_card_of_nodup (nodup_counts column), List.length_map, size]

theorem foldl_most_spec (counts : List (String × Nat)) (m : Nat) :
    m ≤ counts.foldl (fun m c => max m c.2) m ∧
      (∀ c ∈ counts, c.2 ≤ counts.foldl (fun m c => max m c.2) m) ∧
      ∀ n, m ≤ n → (∀ c ∈ counts, c.2 ≤ n) → counts.foldl (fun m c => max m c.2) m ≤ n := by
  induction counts generalizing m with
  | nil => exact ⟨le_rfl, by simp, fun n hm _ => hm⟩
  | cons c counts ih =>
    obtain ⟨h1, h2, h3⟩ := ih (max m c.2)
    rw [List.foldl_cons]
    refine ⟨(le_max_left ..).trans h1, ?_, ?_⟩
    · intro d hd
      rcases List.mem_cons.mp hd with rfl | hd
      · exact (le_max_right ..).trans h1
      · exact h2 d hd
    · intro n hm hn
      exact h3 n (max_le hm (hn c List.mem_cons_self)) fun d hd => hn d (List.mem_cons_of_mem c hd)

theorem le_most {f : Frequency} {c : String × Nat} (h : c ∈ f.counts) : c.2 ≤ f.most :=
  (foldl_most_spec f.counts 0).2.1 c h

theorem most_le {f : Frequency} {n : Nat} (h : ∀ c ∈ f.counts, c.2 ≤ n) : f.most ≤ n :=
  (foldl_most_spec f.counts 0).2.2 n (Nat.zero_le n) h

/-- How often the most frequent texts occur. -/
def largestCount (column : List (Option String)) : Nat :=
  column.reduceOption.toFinset.sup fun s => column.count (some s)

theorem count_le_largestCount (h : some s ∈ column) :
    column.count (some s) ≤ largestCount column :=
  Finset.le_sup (f := fun s => column.count (some s))
    (List.mem_toFinset.mpr (List.reduceOption_mem_iff.mpr h))

theorem largestCount_le (column : List (Option String)) : largestCount column ≤ column.length :=
  Finset.sup_le fun _ _ => List.count_le_length

theorem most_ofColumn (column : List (Option String)) :
    (ofColumn column).most = largestCount column := by
  refine le_antisymm (most_le fun c hc => ?_) (Finset.sup_le fun s hs => ?_)
  · obtain ⟨hs, hn⟩ := mem_counts.mp hc
    rw [hn]
    exact count_le_largestCount hs
  · rw [List.mem_toFinset, List.reduceOption_mem_iff] at hs
    exact le_most (mem_counts.mpr ⟨hs, rfl⟩)

/-! ## Shares -/

/-- A text that is in the table has its share, and any other one none. -/
theorem share_eq (s : String) : (ofColumn column).share (some s) =
    if some s ∈ column then ofNat (column.count (some s)) / ofNat (largestCount column)
    else ofNat 0 := by
  rw [share]
  cases hlookup : (ofColumn column).counts.lookup s with
  | none =>
    rw [if_neg]
    intro hs
    have hne := List.lookup_eq_none_iff.mp hlookup _ (mem_counts.mpr ⟨hs, rfl⟩)
    rw [bne_self_eq_false] at hne
    cases hne
  | some n =>
    obtain ⟨before, after, hsplit, -⟩ := List.lookup_eq_some_iff.mp hlookup
    have hmem : (s, n) ∈ (ofColumn column).counts := by
      rw [hsplit]
      exact List.mem_append_right _ List.mem_cons_self
    obtain ⟨hs, rfl⟩ := mem_counts.mp hmem
    rw [if_pos hs, ← most_ofColumn]

end Tables

theorem share_some {column : List (Option String)} {s : String} (h : some s ∈ column) :
    (ofColumn column).share (some s) =
      ofNat (column.count (some s)) / ofNat (largestCount column) :=
  (share_eq s).trans (if_pos h)

/-- A count that is not zero and has `k` bits. -/
theorem within_count {n k : Nat} (h : 1 ≤ n) (hn : n ≤ 2 ^ k) (hk : k ≤ 971) :
    Within k (ofNat n) ∧ 1 ≤ value (ofNat n) := by
  have hwithin : Within k (ofNat n) := within_ofNat hn hk
  have hone := value_ofNat_le h (by decide) hwithin.1
  rw [Nat.cast_one] at hone
  exact ⟨hwithin, hone⟩

/-- Both counts that a share is the quotient of. -/
theorem within_counts {column : List (Option String)} {s : String} {k : Nat}
    (hlength : column.length ≤ 2 ^ k) (hk : k ≤ 971) (h : some s ∈ column) :
    (Within k (ofNat (column.count (some s))) ∧ 1 ≤ value (ofNat (column.count (some s)))) ∧
      Within k (ofNat (largestCount column)) ∧ 1 ≤ value (ofNat (largestCount column)) := by
  have hcount : 1 ≤ column.count (some s) := List.count_pos_iff.mpr h
  have hle := count_le_largestCount h
  have hmost := (largestCount_le column).trans hlength
  exact ⟨within_count hcount (hle.trans hmost) hk, within_count (hcount.trans hle) hmost hk⟩

theorem share_within {column : List (Option String)} (hlength : column.length ≤ 2 ^ 60)
    (s : Option String) : Within 60 ((ofColumn column).share s) := by
  have hzero : Within 60 (ofNat 0) := within_ofNat (k := 60) (by decide) (by decide)
  cases s with
  | none => exact hzero
  | some s =>
    rw [share_eq]
    split
    case isTrue h =>
      obtain ⟨⟨hcount, -⟩, hmost, hmost1⟩ := within_counts hlength (by decide) h
      exact within_div hcount hmost.1 hmost1 (by decide) (by decide)
    case isFalse => exact hzero

/-- The share of a text that occurs is not zero. A word of 64 bits counts the texts. -/
theorem share_pos {column : List (Option String)} {s : String} (hlength : column.length ≤ 2 ^ 64)
    (h : some s ∈ column) : 0 < value ((ofColumn column).share (some s)) := by
  obtain ⟨⟨hcount, hcount1⟩, hmost, hmost1⟩ := within_counts hlength (by decide) h
  rw [share_some h]
  obtain ⟨p, hp, hvalue⟩ := exists_value (m := 1) (e := -64) (by decide) (by decide) (by decide)
    false
  rw [signedValue_false, Nat.cast_one, one_mul] at hvalue
  have hquotient := (within_div hcount hmost.1 hmost1 (by decide) (by decide)).1
  have hround := isRounding_div hcount.1 hmost.1 (by linarith)
  have hlarge : (2 : ℚ) ^ (-64 : Int) ≤ value (ofNat (column.count (some s))) /
      value (ofNat (largestCount column)) := by
    rw [zpow_neg, ← one_div]
    exact div_le_div₀ (by linarith) hcount1 (by linarith) ((le_abs_self _).trans hmost.2)
  have hle := hround.le_value hquotient hp (hvalue ▸ hlarge)
  rw [hvalue] at hle
  exact (two_zpow_pos _).trans_le hle

/-- The share of the most frequent texts is one. -/
theorem share_most {column : List (Option String)} {s : String} (hlength : column.length ≤ 2 ^ 64)
    (h : some s ∈ column) (hmost : column.count (some s) = largestCount column) :
    (ofColumn column).share (some s) = ofNat 1 := by
  obtain ⟨-, hwithin, hone⟩ := within_counts hlength (by decide) h
  rw [share_some h, hmost]
  have hround := isRounding_div hwithin.1 hwithin.1 (by linarith)
  rw [div_self (by linarith), ← value_one] at hround
  obtain ⟨hfinite, hvalue⟩ := hround.value_eq isFinite_one rfl
  exact eq_of_value_eq hfinite isFinite_one hvalue (by rw [hvalue, value_one]; norm_num)

end LoginForest.Frequency
