/-
  Steps that may fail, one after another and along a list. What follows a step that succeeds is what
  there is; an error is that of the first step that has one. Along a list, steps that succeed give
  their results one by one, and blocks of it can be taken for themselves.
-/
import Mathlib.Data.List.Forall2

namespace LoginForest

section Steps

variable {α β γ ε : Type}

/-! ## One step after another -/

theorem Except.ok_bind (a : α) (f : α → Except ε β) : (.ok a : Except ε α) >>= f = f a := rfl

theorem Except.bind_eq_ok {x : Except ε α} {f : α → Except ε β} {b : β} (h : x >>= f = .ok b) :
    ∃ a, x = .ok a ∧ f a = .ok b := by
  cases x with
  | error e => cases h
  | ok a => exact ⟨a, rfl, h⟩

theorem Except.bind_eq_error_iff {x : Except ε α} {f : α → Except ε β} {e : ε} :
    x >>= f = .error e ↔ x = .error e ∨ ∃ a, x = .ok a ∧ f a = .error e := by
  cases x with
  | error e' =>
    constructor
    · rintro ⟨⟩
      exact .inl rfl
    · rintro (⟨⟨⟩⟩ | ⟨a, ⟨⟩, -⟩)
      rfl
  | ok a =>
    constructor
    · intro h
      exact .inr ⟨a, rfl, h⟩
    · rintro (⟨⟨⟩⟩ | ⟨_, ⟨⟩, h⟩)
      exact h

theorem Except.map_eq_ok {x : Except ε α} {f : α → β} {b : β} (h : x.map f = .ok b) :
    ∃ a, x = .ok a ∧ f a = b := by
  cases x with
  | error e => cases h
  | ok a => exact ⟨a, rfl, Except.ok.inj h⟩

theorem Except.map_eq_error_iff {x : Except ε α} {f : α → β} {e : ε} :
    x.map f = .error e ↔ x = .error e := by
  cases x <;> simp [Except.map]

/-- A check that holds of a result shows that there is one. -/
theorem Except.exists_ok_of_any {x : Except ε α} {check : α → Bool} (h : x.toOption.any check) :
    ∃ a, x = .ok a ∧ check a := by
  cases x with
  | error e => cases h
  | ok a => exact ⟨a, rfl, h⟩

/-! ## Steps along a list -/

/-- Steps that agree on a list give the same results on it. -/
theorem List.mapM_congr_mem {f g : α → Except ε β} {as : List α} (heq : ∀ a ∈ as, f a = g a) :
    as.mapM f = as.mapM g := by
  induction as with
  | nil => rfl
  | cons a as ih =>
    rw [List.forall_mem_cons] at heq
    rw [List.mapM_cons, List.mapM_cons, heq.1, ih heq.2]

theorem List.mapM_mono {f g : α → Except ε β} {as : List α} {bs : List β}
    (h : ∀ a ∈ as, ∀ b, f a = .ok b → g a = .ok b) (hf : as.mapM f = .ok bs) :
    as.mapM g = .ok bs := by
  induction as generalizing bs with
  | nil => exact hf
  | cons a as ih =>
    obtain ⟨ha, has⟩ := List.forall_mem_cons.mp h
    rw [List.mapM_cons] at hf ⊢
    obtain ⟨b, hb, hf⟩ := Except.bind_eq_ok hf
    obtain ⟨rest, hrest, hf⟩ := Except.bind_eq_ok hf
    rw [ha b hb, Except.ok_bind, ih has hrest, Except.ok_bind]
    exact hf

theorem List.mapM_map_result (f : α → Except ε β) (g : β → γ) (as : List α) :
    (as.mapM fun a => (f a).map g) = (as.mapM f).map (List.map g) := by
  induction as with
  | nil => rfl
  | cons a as ih =>
    rw [List.mapM_cons, List.mapM_cons, ih]
    cases f a with
    | error e => rfl
    | ok b => cases as.mapM f <;> rfl

/-- Blocks of a list can be taken one by one. -/
theorem List.mapM_flatten (f : α → Except ε β) (blocks : List (List α)) :
    blocks.flatten.mapM f = (blocks.mapM fun block => List.mapM f block).map List.flatten := by
  induction blocks with
  | nil => rfl
  | cons block blocks ih =>
    rw [List.flatten_cons, List.mapM_append, ih, List.mapM_cons]
    cases block.mapM f with
    | error e => rfl
    | ok bs => cases blocks.mapM fun block => List.mapM f block <;> rfl

theorem List.mapM_eq_some_map {f : α → Option β} {g : α → β} {as : List α}
    (h : ∀ a ∈ as, f a = some (g a)) : as.mapM f = some (as.map g) := by
  induction as with
  | nil => rfl
  | cons a as ih =>
    rw [List.mapM_cons, h a List.mem_cons_self, ih fun b hb => h b (List.mem_cons_of_mem a hb)]
    rfl

/-- Steps that all succeed give their results one by one. -/
theorem List.forall₂_of_mapM {f : α → Option β} {as : List α} {bs : List β}
    (h : as.mapM f = some bs) : List.Forall₂ (fun a b => f a = some b) as bs := by
  induction as generalizing bs with
  | nil =>
    obtain rfl := Option.some.inj h
    exact .nil
  | cons a as ih =>
    rw [List.mapM_cons] at h
    obtain ⟨b, hb, h⟩ := Option.bind_eq_some_iff.mp h
    obtain ⟨rest, hrest, h⟩ := Option.bind_eq_some_iff.mp h
    obtain rfl := Option.some.inj h
    exact .cons hb (ih hrest)

theorem List.filterMap_of_mapM {f : α → Option β} {as : List α} {bs : List β}
    (h : as.mapM f = some bs) : as.filterMap f = bs := by
  have hsteps := List.forall₂_of_mapM h
  clear h
  induction hsteps with
  | nil => rfl
  | cons hb _ ih => rw [List.filterMap_cons_some hb, ih]

end Steps

end LoginForest
