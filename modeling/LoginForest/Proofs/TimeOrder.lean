/-
  Time order and trust. Sorting by time is stable, so that selecting from a sorted list gives the
  same as sorting the selection (`select_inTimeOrder`): what a policy trusts in a history does
  not depend on the attempts between that it does not trust. That a list is in order and keeps its
  ties says all of a stable sort (`StablyOrdered.unique`).
-/
import LoginForest.Trust

namespace LoginForest

/-! ## Stable sorting and selection -/

section Sorting

variable {α : Type} {le : α → α → Bool}

/-- Where an element is put in a list is told by what must stand after it. -/
theorem split_unique (keep : α → Bool) {xs ys xs' ys' : List α} (h : xs ++ ys = xs' ++ ys')
    (hx : ∀ b ∈ xs, keep b = false) (hy : ∀ b ∈ ys, keep b = true)
    (hx' : ∀ b ∈ xs', keep b = false) (hy' : ∀ b ∈ ys', keep b = true) :
    xs = xs' ∧ ys = ys' := by
  induction xs generalizing xs' with
  | nil =>
    cases xs' with
    | nil => exact ⟨rfl, h⟩
    | cons x xs' =>
      have hmem : x ∈ ys := by
        rw [List.nil_append] at h
        rw [h]
        exact List.mem_cons_self
      have := hy x hmem
      rw [hx' x List.mem_cons_self] at this
      cases this
  | cons x xs ih =>
    cases xs' with
    | nil =>
      have hmem : x ∈ ys' := by
        rw [List.nil_append] at h
        rw [← h]
        exact List.mem_cons_self
      have := hy' x hmem
      rw [hx x List.mem_cons_self] at this
      cases this
    | cons x' xs' =>
      obtain ⟨rfl, htail⟩ := List.cons.inj h
      obtain ⟨rfl, rfl⟩ := ih htail (fun b hb => hx b (List.mem_cons_of_mem _ hb))
        (fun b hb => hx' b (List.mem_cons_of_mem _ hb))
      exact ⟨rfl, rfl⟩

theorem le_of_mem_after (trans : ∀ a b c, le a b → le b c → le a c)
    (total : ∀ a b, le a b || le b a) {a : α} {l xs ys : List α}
    (h : (a :: l).mergeSort le = xs ++ a :: ys) : ∀ b ∈ ys, le a b = true := by
  have hsorted := List.pairwise_mergeSort trans total (a :: l)
  rw [h, List.pairwise_append] at hsorted
  exact (List.pairwise_cons.mp hsorted.2.1).1

/-- Selecting commutes with sorting, which is stable. -/
theorem filter_mergeSort (trans : ∀ a b c, le a b → le b c → le a c)
    (total : ∀ a b, le a b || le b a) (p : α → Bool) (l : List α) :
    (l.mergeSort le).filter p = (l.filter p).mergeSort le := by
  induction l with
  | nil => simp
  | cons a l ih =>
    obtain ⟨xs, ys, hcons, htail, hbefore⟩ := List.mergeSort_cons trans total a l
    have hafter := le_of_mem_after trans total hcons
    rw [htail, List.filter_append] at ih
    rw [hcons, List.filter_append]
    by_cases hp : p a
    · obtain ⟨xs', ys', hcons', htail', hbefore'⟩ :=
        List.mergeSort_cons trans total a (l.filter p)
      have hafter' := le_of_mem_after trans total hcons'
      -- both lists are split at the place of the new element
      obtain ⟨hxs, hys⟩ := split_unique (le a) (ih.trans htail')
        (fun b hb => by simpa using hbefore b (List.mem_filter.mp hb).1)
        (fun b hb => hafter b (List.mem_filter.mp hb).1)
        (fun b hb => by simpa using hbefore' b hb) hafter'
      rw [List.filter_cons_of_pos hp, List.filter_cons_of_pos hp, hcons', hxs, hys]
    · rw [List.filter_cons_of_neg hp, List.filter_cons_of_neg hp, ih]

/-- The same elements in ascending order; those of one rank stand in the order that they had. -/
structure StablyOrdered (le : α → α → Bool) (l l' : List α) : Prop where
  perm : l'.Perm l
  ascending : l'.Pairwise fun a b => le a b
  ties : ∀ a, (l'.filter fun b => le a b && le b a) = l.filter fun b => le a b && le b a

theorem stablyOrdered_mergeSort (trans : ∀ a b c, le a b → le b c → le a c)
    (total : ∀ a b, le a b || le b a) (l : List α) : StablyOrdered le l (l.mergeSort le) := by
  refine ⟨List.mergeSort_perm l le, List.pairwise_mergeSort trans total l, fun a => ?_⟩
  rw [filter_mergeSort trans total]
  apply List.mergeSort_of_pairwise
  refine List.pairwise_of_forall_mem_list fun b hb c hc => ?_
  -- elements of one rank are in order as they are
  have hb' := (List.mem_filter.mp hb).2
  have hc' := (List.mem_filter.mp hc).2
  rw [Bool.and_eq_true] at hb' hc'
  exact trans b a c hb'.2 hc'.1

/-- Ascending lists of the same elements are one list when the elements of each rank stand in one
order. -/
theorem eq_of_ties (total : ∀ a b, le a b || le b a) {l l' : List α} (hperm : l.Perm l')
    (h : l.Pairwise fun a b => le a b) (h' : l'.Pairwise fun a b => le a b)
    (hties : ∀ a, (l.filter fun b => le a b && le b a) = l'.filter fun b => le a b && le b a) :
    l = l' := by
  have hrefl : ∀ a, le a a = true := fun a => (Bool.or_self _).symm.trans (total a a)
  induction l generalizing l' with
  | nil => exact hperm.nil_eq
  | cons a l ih =>
    cases l' with
    | nil => cases hperm.length_eq
    | cons a' l' =>
      -- the first elements are of one rank, and stand first in it
      have hle : le a a' := by
        rcases List.mem_cons.mp (hperm.mem_iff.mpr List.mem_cons_self) with rfl | hmem
        · exact hrefl _
        · exact List.rel_of_pairwise_cons h hmem
      have hle' : le a' a := by
        rcases List.mem_cons.mp (hperm.mem_iff.mp List.mem_cons_self) with rfl | hmem
        · exact hrefl _
        · exact List.rel_of_pairwise_cons h' hmem
      have hfirst := hties a
      rw [List.filter_cons_of_pos (by simp [hrefl]),
        List.filter_cons_of_pos (by simp [hle, hle'])] at hfirst
      obtain ⟨rfl, -⟩ := List.cons.inj hfirst
      refine congrArg (a :: ·) (ih hperm.cons_inv h.of_cons h'.of_cons fun b => ?_)
      have htie := hties b
      rw [List.filter_cons, List.filter_cons] at htie
      by_cases hb : le b a && le a b
      · rw [if_pos hb, if_pos hb] at htie
        exact (List.cons.inj htie).2
      · rwa [if_neg hb, if_neg hb] at htie

/-- A list is stably ordered in one way. -/
theorem StablyOrdered.unique (total : ∀ a b, le a b || le b a) {l l₁ l₂ : List α}
    (h₁ : StablyOrdered le l l₁) (h₂ : StablyOrdered le l l₂) : l₁ = l₂ :=
  eq_of_ties total (h₁.perm.trans h₂.perm.symm) h₁.ascending h₂.ascending fun a =>
    (h₁.ties a).trans (h₂.ties a).symm

end Sorting

namespace Time.Timestamp

theorem notAfter_iff {a b : Timestamp} : a.notAfter b ↔ a.unixSeconds < b.unixSeconds ∨
    a.unixSeconds = b.unixSeconds ∧ a.clock.nanos ≤ b.clock.nanos := by
  rw [notAfter, Bool.or_eq_true, Bool.and_eq_true, decide_eq_true_eq, beq_iff_eq,
    decide_eq_true_eq]

theorem notAfter_trans {a b c : Timestamp} (hab : a.notAfter b) (hbc : b.notAfter c) :
    a.notAfter c := by
  rw [notAfter_iff] at hab hbc ⊢
  rcases hab with hab | ⟨hab, hab'⟩ <;> rcases hbc with hbc | ⟨hbc, hbc'⟩
  · exact .inl (Int.lt_trans hab hbc)
  · exact .inl (hbc ▸ hab)
  · exact .inl (hab ▸ hbc)
  · exact .inr ⟨hab.trans hbc, Nat.le_trans hab' hbc'⟩

theorem notAfter_total (a b : Timestamp) : a.notAfter b || b.notAfter a := by
  rw [Bool.or_eq_true, notAfter_iff, notAfter_iff]
  rcases Int.lt_trichotomy a.unixSeconds b.unixSeconds with h | h | h
  · exact .inl (.inl h)
  · rcases Nat.le_total a.clock.nanos b.clock.nanos with h' | h'
    · exact .inl (.inr ⟨h, h'⟩)
    · exact .inr (.inr ⟨h.symm, h'⟩)
  · exact .inr (.inl h)

end Time.Timestamp

theorem Attempt.time_trans (a b c : Attempt) (hab : a.time.notAfter b.time)
    (hbc : b.time.notAfter c.time) : a.time.notAfter c.time :=
  Time.Timestamp.notAfter_trans hab hbc

theorem Attempt.time_total (a b : Attempt) : a.time.notAfter b.time || b.time.notAfter a.time :=
  Time.Timestamp.notAfter_total a.time b.time

/-- What a policy selects from a history are the selected attempts in time order. -/
theorem TrustPolicy.select_inTimeOrder (p : TrustPolicy) (attempts : List Attempt) :
    p.select (inTimeOrder attempts) = inTimeOrder (p.select attempts) :=
  filter_mergeSort Attempt.time_trans Attempt.time_total p.trusts attempts

theorem stablyOrdered_inTimeOrder (attempts : List Attempt) :
    StablyOrdered (fun a b => a.time.notAfter b.time) attempts (inTimeOrder attempts) :=
  stablyOrdered_mergeSort Attempt.time_trans Attempt.time_total attempts

theorem inTimeOrder_eq_nil_iff {attempts : List Attempt} :
    inTimeOrder attempts = [] ↔ attempts = [] := by
  rw [← List.length_eq_zero_iff, inTimeOrder, List.length_mergeSort, List.length_eq_zero_iff]

/-! ## Changes among untrusted attempts -/

/-- One attempt that the policy does not trust is put in, left out, or altered into another that
it does not trust. -/
inductive TrustPolicy.Edit (p : TrustPolicy) : List Attempt → List Attempt → Prop
  | insert (before after : List Attempt) {a : Attempt} (h : p.trusts a = false) :
    p.Edit (before ++ after) (before ++ a :: after)
  | delete (before after : List Attempt) {a : Attempt} (h : p.trusts a = false) :
    p.Edit (before ++ a :: after) (before ++ after)
  | alter (before after : List Attempt) {a b : Attempt} (ha : p.trusts a = false)
    (hb : p.trusts b = false) : p.Edit (before ++ a :: after) (before ++ b :: after)

/-- Any number of such changes. -/
inductive TrustPolicy.Edits (p : TrustPolicy) : List Attempt → List Attempt → Prop
  | refl (l : List Attempt) : p.Edits l l
  | step {l l' l'' : List Attempt} (h : p.Edits l l') (h' : p.Edit l' l'') : p.Edits l l''

namespace TrustPolicy

variable {p : TrustPolicy} {l l' : List Attempt}

theorem select_insert (before after : List Attempt) {a : Attempt} (h : p.trusts a = false) :
    p.select (before ++ a :: after) = p.select (before ++ after) := by
  simp [select, h]

theorem Edit.select_eq (h : p.Edit l l') : p.select l = p.select l' := by
  cases h with
  | insert before after h => exact (select_insert before after h).symm
  | delete before after h => exact select_insert before after h
  | alter before after ha hb =>
    exact (select_insert before after ha).trans (select_insert before after hb).symm

theorem Edits.select_eq (h : p.Edits l l') : p.select l = p.select l' := by
  induction h with
  | refl => rfl
  | step _ h' ih => exact ih.trans h'.select_eq

end TrustPolicy

end LoginForest
