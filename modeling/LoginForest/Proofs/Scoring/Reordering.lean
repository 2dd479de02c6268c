/-
  Scores depend neither on the order of attempts nor on their names. A list of places puts a list
  into another order; it does the same to the features of attempts (`ofAttempts_of_reordered`), as
  medians and frequencies are those of any order, and each later step works row by row. So it does
  the same to what a bundle or a run makes of the attempts (`scores_of_reordered`).
-/
import LoginForest.Proofs.Scoring.Influence
import LoginForest.Proofs.Stats.Permuted

namespace LoginForest

/-! ## Lists in another order -/

/-- The elements in the places of `p`, in the order of `p`. -/
def reorder {α : Type} (p : List Nat) (l : List α) : List α := p.filterMap (l[·]?)

section Reorder

variable {α β : Type} (p : List Nat) {l : List α}

theorem reorder_map (f : α → β) (l : List α) : reorder p (l.map f) = (reorder p l).map f := by
  unfold reorder
  rw [List.map_filterMap]
  simp only [List.getElem?_map]

theorem reorder_zip {l' : List β} (h : l'.length = l.length) :
    reorder p (l.zip l') = (reorder p l).zip (reorder p l') := by
  unfold reorder
  induction p with
  | nil => rfl
  | cons i p ih =>
    by_cases hi : i < l.length
    · have hi' : i < l'.length := h ▸ hi
      simp [hi, hi', ih]
    · have hi' : ¬ i < l'.length := h ▸ hi
      simp [hi, hi', ih]

theorem filterMap_range_length (l : List α) : (List.range l.length).filterMap (l[·]?) = l := by
  induction l with
  | nil => rfl
  | cons a l ih =>
    rw [List.length_cons, List.range_succ_eq_map,
      List.filterMap_cons_some (f := ((a :: l)[·]?)) rfl, List.filterMap_map]
    exact congrArg (a :: ·) ih

variable {p}

/-- All places, each once, are an order of the list. -/
theorem reorder_perm (h : p.Perm (List.range l.length)) : (reorder p l).Perm l := by
  have hperm := h.filterMap (l[·]?)
  rwa [filterMap_range_length] at hperm

end Reorder

/-- The rows in the places of `p`. -/
def Matrix.reorder {α : Type} (p : List Nat) (x : Matrix α) : Matrix α where
  width := x.width
  rows := LoginForest.reorder p x.rows
  width_eq := by
    intro r hr
    obtain ⟨i, -, hi⟩ := List.mem_filterMap.mp hr
    exact x.width_eq r (List.mem_of_getElem? hi)

/-! ## Row by row -/

section Rows

variable (p : List Nat)

theorem Scaling.transform_reorder {α : Type} [Scalar α] (s : Scaling α) (x : Matrix α) :
    s.transform (x.reorder p) = (s.transform x).map (·.reorder p) := by
  unfold transform
  by_cases h : s.columns.length = x.width
  · have hreorder : s.columns.length = (x.reorder p).width := h
    rw [dif_pos h, dif_pos hreorder]
    have hrows := reorder_map p (fun r => List.zipWith (fun v c => (v - c.median) / c.scale)
      r s.columns) x.rows
    simp only [apply, Matrix.zipColumns, Matrix.reorder, Except.map, hrows]
  · have hreorder : ¬ s.columns.length = (x.reorder p).width := h
    rw [dif_neg h, dif_neg hreorder]
    rfl

variable {p} {x : Matrix Float}

theorem Forest.score_reorder [Elementary] (f : Forest) (h : p.Perm (List.range x.height)) :
    f.score (x.reorder p) = (f.score x).map (reorder p) := by
  have hadmits : f.admits (x.reorder p) = f.admits x := (reorder_perm h).all_eq
  have hrows : (x.reorder p).rows.map f.scoreRow = reorder p (x.rows.map f.scoreRow) :=
    (reorder_map p f.scoreRow x.rows).symm
  have hwidth : (x.reorder p).width = x.width := rfl
  unfold score
  rw [hwidth, hadmits, hrows]
  split
  · split <;> rfl
  · rfl

theorem Forest.flag_reorder (f : Forest) (p : List Nat) (scores : List Float) :
    f.flag (reorder p scores) = reorder p (f.flag scores) :=
  (reorder_map ..).symm

theorem Scaling.height_of_transform {α : Type} [Scalar α] {s : Scaling α} {x y : Matrix α}
    (h : s.transform x = .ok y) : y.height = x.height := by
  unfold transform at h
  split at h
  case isTrue hwidth =>
    rw [← Except.ok.inj h]
    exact s.height_apply x hwidth
  case isFalse => cases h

theorem Bundle.scoreMatrix_reorder [Elementary] (b : Bundle)
    (h : p.Perm (List.range x.height)) :
    b.scoreMatrix (x.reorder p) =
      (b.scoreMatrix x).map fun r => (reorder p r.1, reorder p r.2) := by
  unfold scoreMatrix
  rw [Scaling.transform_reorder]
  cases hscaled : b.scaling.transform x with
  | error e => rfl
  | ok y =>
    have hy : p.Perm (List.range y.height) := by rwa [Scaling.height_of_transform hscaled]
    simp only [Except.map, Except.ok_bind, b.forest.score_reorder hy]
    cases b.forest.score y with
    | error e => rfl
    | ok scores =>
      simp only [Except.ok_bind, Forest.flag_reorder]
      rfl

/-- A bundle has a score and a flag for each row. -/
theorem Bundle.length_of_scoreMatrix [Elementary] {b : Bundle} {scores : List Float}
    {flags : List Bool} (h : b.scoreMatrix x = .ok (scores, flags)) :
    scores.length = x.height ∧ flags.length = x.height := by
  unfold scoreMatrix at h
  obtain ⟨y, hscaled, h⟩ := Except.bind_eq_ok h
  obtain ⟨scores', hscore, h⟩ := Except.bind_eq_ok h
  obtain ⟨rfl, rfl⟩ := Prod.mk.inj (Except.ok.inj h)
  have hlength : scores'.length = y.height := by
    unfold Forest.score at hscore
    split at hscore
    · split at hscore
      · rw [← Except.ok.inj hscore, List.length_map]
        rfl
      · cases hscore
    · cases hscore
  rw [Scaling.height_of_transform hscaled] at hlength
  exact ⟨hlength, (b.forest.length_flag scores').trans hlength⟩

end Rows

/-! ## Names and order of attempts -/

/-- An attempt without its name and its user. -/
def Attempt.unnamed (a : Attempt) : Attempt := { a with id := "", user := none }

/-- Attempts in the order of `p`, whatever they and their users are called. -/
structure Reordered (p : List Nat) (attempts attempts' : List Attempt) : Prop where
  places : p.Perm (List.range attempts.length)
  unnamed : attempts'.map Attempt.unnamed = (reorder p attempts).map Attempt.unnamed

/-- The features of the attempts in the places of `p`. -/
def Features.reorder (p : List Nat) (f : Features) : Features where
  matrix := f.matrix.reorder p
  recoveries := LoginForest.reorder p f.recoveries
  background := f.background

/-- The scores and flags of rows, given to these attempts. -/
def Scored.assign (attempts : List Attempt) (rows : List Scored) : List Scored :=
  List.zipWith (fun a r => { r with attempt := a }) attempts rows

/-- Rows that are assigned to their own attempts stay as they are. -/
theorem Scored.assign_self (rows : List Scored) : assign (rows.map (·.attempt)) rows = rows := by
  induction rows with
  | nil => rfl
  | cons r rows ih => exact congrArg (r :: ·) ih

theorem Scored.assign_zip {attempts attempts' : List Attempt}
    (h : attempts'.length = attempts.length) (scores : List Float) (flags : List Bool) :
    assign attempts' (zip attempts scores flags) = zip attempts' scores flags := by
  unfold assign zip
  generalize scores.zip flags = pairs
  induction attempts generalizing attempts' pairs with
  | nil =>
    rw [List.length_eq_zero_iff.mp h]
    rfl
  | cons a attempts ih =>
    obtain ⟨a', attempts', rfl⟩ := List.exists_cons_of_length_eq_add_one h
    cases pairs with
    | nil => rfl
    | cons pair pairs => exact congrArg (_ :: ·) (ih (Nat.succ.inj h) pairs)

theorem Scored.reorder_zip (p : List Nat) {attempts : List Attempt} {scores : List Float}
    {flags : List Bool} (hs : scores.length = attempts.length)
    (hf : flags.length = attempts.length) :
    reorder p (zip attempts scores flags) =
      zip (reorder p attempts) (reorder p scores) (reorder p flags) := by
  have hpairs : (scores.zip flags).length = attempts.length := by simp [hs, hf]
  rw [zip_eq_map, zip_eq_map, reorder_map, LoginForest.reorder_zip p hpairs,
    LoginForest.reorder_zip p (hf.trans hs.symm)]

namespace Reordered

variable {p : List Nat} {attempts attempts' : List Attempt}

theorem length_eq (h : Reordered p attempts attempts') : attempts'.length = attempts.length := by
  have hlength := congrArg List.length h.unnamed
  rw [List.length_map, List.length_map] at hlength
  exact hlength.trans (reorder_perm h.places).length_eq

theorem isEmpty_eq (h : Reordered p attempts attempts') : attempts'.isEmpty = attempts.isEmpty := by
  rw [Bool.eq_iff_iff, List.isEmpty_iff_length_eq_zero, List.isEmpty_iff_length_eq_zero,
    h.length_eq]

/-- Rows that are scored in their order, scored in another one. -/
theorem zip_eq (h : Reordered p attempts attempts') {scores : List Float}
    {flags : List Bool} (hs : scores.length = attempts.length)
    (hf : flags.length = attempts.length) :
    Scored.zip attempts' (reorder p scores) (reorder p flags) =
      Scored.assign attempts' (reorder p (Scored.zip attempts scores flags)) := by
  rw [Scored.reorder_zip p hs hf, Scored.assign_zip]
  exact h.length_eq.trans (reorder_perm h.places).length_eq.symm

end Reordered

section Features

variable [Elementary]

/-- Features do not depend on names. -/
theorem Features.ofAttempts_unnamed (attempts : List Attempt) :
    ofAttempts (attempts.map Attempt.unnamed) = ofAttempts attempts := by
  have hbackground : Background.ofAttempts (attempts.map Attempt.unnamed) =
      Background.ofAttempts attempts := by
    unfold Background.ofAttempts
    simp only [List.map_map]
    rfl
  unfold ofAttempts
  simp only [hbackground, List.map_map]
  rfl

theorem Features.ofAttempts_reorder {p : List Nat} {attempts : List Attempt}
    (h : p.Perm (List.range attempts.length)) :
    ofAttempts (LoginForest.reorder p attempts) = (ofAttempts attempts).reorder p := by
  have hbackground := Background.ofAttempts_eq_of_perm (reorder_perm h)
  unfold ofAttempts Features.reorder Matrix.reorder
  simp only [hbackground, reorder_map]

/-- Another order of the attempts is another order of their features. -/
theorem Features.ofAttempts_of_reordered {p : List Nat} {attempts attempts' : List Attempt}
    (h : Reordered p attempts attempts') :
    ofAttempts attempts' = (ofAttempts attempts).reorder p := by
  rw [← ofAttempts_unnamed attempts', h.unnamed, ofAttempts_unnamed, ofAttempts_reorder h.places]

end Features

/-! ## Bundles and runs -/

section Scores

variable [Elementary] {p : List Nat} {attempts attempts' : List Attempt}

theorem Bundle.scoreAttempts_of_reordered (b : Bundle) (h : Reordered p attempts attempts') :
    b.scoreAttempts attempts' =
      (b.scoreAttempts attempts).map fun rows => Scored.assign attempts' (reorder p rows) := by
  unfold scoreAttempts
  rw [h.isEmpty_eq, Features.ofAttempts_of_reordered h]
  split
  case isTrue => rfl
  case isFalse =>
    have hplaces : p.Perm (List.range (Features.ofAttempts attempts).matrix.height) := by
      rw [Features.height_ofAttempts]
      exact h.places
    have hscore := b.scoreMatrix_reorder hplaces
    simp only [Features.reorder, hscore]
    cases hrows : b.scoreMatrix (Features.ofAttempts attempts).matrix with
    | error e => rfl
    | ok rows =>
      obtain ⟨hs, hf⟩ := length_of_scoreMatrix hrows
      rw [Features.height_ofAttempts] at hs hf
      simp only [Except.map, Except.ok_bind]
      exact congrArg Except.ok (h.zip_eq hs hf)

namespace Settings

theorem scaledMatrix_of_reordered (training : List Attempt) (h : Reordered p attempts attempts') :
    scaledMatrix training attempts' = (scaledMatrix training attempts).reorder p := by
  have hscaled := Scaling.transform_reorder p (scalingOf training)
    (Features.ofAttempts attempts).matrix
  have hfeatures : (Features.ofAttempts attempts').matrix =
      (Features.ofAttempts attempts).matrix.reorder p := by
    rw [Features.ofAttempts_of_reordered h]
    rfl
  rw [← hfeatures, Scaling.transform_eq (length_scalingOf training attempts'),
    Scaling.transform_eq (length_scalingOf training attempts)] at hscaled
  exact Except.ok.inj hscaled

theorem scoresOf_of_reordered (s : Settings) (chance : UInt64) (training : List Attempt)
    (h : Reordered p attempts attempts') :
    s.scoresOf chance training attempts' = reorder p (s.scoresOf chance training attempts) := by
  unfold scoresOf
  rw [scaledMatrix_of_reordered training h, reorder_map]
  rfl

theorem outcomeOf_of_reordered {s : Settings} (hseed : s.seed.isSome) (occasion later : Occasion)
    {trusted : List Attempt} (htrusted : trusted ≠ []) (h : Reordered p attempts attempts') :
    s.outcomeOf later trusted attempts' =
      { (s.outcomeOf occasion trusted attempts).trainedAt later.now with
        scored := Scored.assign attempts'
          (reorder p (s.outcomeOf occasion trusted attempts).scored) } := by
  have hforest := forestOf_seeded hseed later.chance occasion.chance trusted
  have hscores := scoresOf_of_reordered s occasion.chance trusted h
  have hlength := s.length_scoresOf occasion.chance trusted attempts
  have hflags := ((s.forestOf occasion.chance trusted).length_flag
    (s.scoresOf occasion.chance trusted attempts)).trans hlength
  have hcount : (reorder p ((s.forestOf occasion.chance trusted).flag
      (s.scoresOf occasion.chance trusted attempts))).countP id =
        ((s.forestOf occasion.chance trusted).flag
          (s.scoresOf occasion.chance trusted attempts)).countP id := by
    refine (reorder_perm ?_).countP_eq id
    rw [hflags]
    exact h.places
  have hlater : s.scoresOf later.chance trusted attempts' =
      s.scoresOf occasion.chance trusted attempts' := by
    unfold scoresOf
    rw [hforest]
  simp only [outcomeOf, trainingList_of_ne_nil htrusted, bundleOf, hforest, hlater, hscores,
    Forest.flag_reorder, h.zip_eq hlength hflags, hcount, h.length_eq]
  rfl

theorem run_of_reordered {s : Settings} (hseed : s.seed.isSome) (occasion later : Occasion)
    {trusted : List Attempt} (htrusted : trusted ≠ []) (h : Reordered p attempts attempts') :
    s.run later trusted attempts' = (s.run occasion trusted attempts).map fun o =>
      { o.trainedAt later.now with scored := Scored.assign attempts' (reorder p o.scored) } := by
  by_cases hall : attempts = []
  · have hall' : attempts' = [] := by
      rw [← List.length_eq_zero_iff, h.length_eq, hall, List.length_nil]
    rw [hall, hall', run_nil, run_nil]
    rfl
  · have hall' : attempts' ≠ [] := by
      rw [ne_eq, ← List.length_eq_zero_iff, h.length_eq, List.length_eq_zero_iff]
      exact hall
    cases hcheck : s.check with
    | error e =>
      rw [run_of_check_error later trusted hall' hcheck,
        run_of_check_error occasion trusted hall hcheck]
      rfl
    | ok _ =>
      rw [run_eq later trusted hcheck hall', run_eq occasion trusted hcheck hall,
        outcomeOf_of_reordered hseed occasion later htrusted h]
      rfl

end Settings

/-- Neither the order of attempts nor what they and their users are called makes a difference. The
medians and frequencies are the same, the features are those of each attempt in its new place;
scalers are fitted to the same statistics; and what a bundle or a run on trusted attempts finds
are the scores and flags of each attempt in its new place, and the model, the threshold and the
number of flags as before. Attempts that keep their names keep their whole row. -/
theorem scores_of_reordered (h : Reordered p attempts attempts') :
    Features.ofAttempts attempts' = (Features.ofAttempts attempts).reorder p ∧
    (∀ (s : Scaler) (x y : Matrix Float), y.width = x.width → y.rows.Perm x.rows →
      s.fit y = s.fit x) ∧
    (∀ b : Bundle, b.scoreAttempts attempts' =
      (b.scoreAttempts attempts).map fun rows => Scored.assign attempts' (reorder p rows)) ∧
    (∀ (s : Settings) (occasion later : Occasion) (trusted : List Attempt), trusted ≠ [] →
      s.seed.isSome → s.run later trusted attempts' =
        (s.run occasion trusted attempts).map fun o =>
          { o.trainedAt later.now with
            scored := Scored.assign attempts' (reorder p o.scored) }) ∧
    ∀ rows : List Scored, rows.map (·.attempt) = attempts → attempts' = reorder p attempts →
      Scored.assign attempts' (reorder p rows) = reorder p rows := by
  refine ⟨Features.ofAttempts_of_reordered h, fun s x y => s.fit_eq_of_perm,
    fun b => b.scoreAttempts_of_reordered h, ?_, ?_⟩
  · intro s occasion later trusted htrusted hseed
    exact Settings.run_of_reordered hseed occasion later htrusted h
  · rintro rows rfl rfl
    rw [reorder_map, Scored.assign_self]

end Scores

/-- Two attempts that change places and are called otherwise. -/
theorem scores_of_swapped :
    let a := Attempt.blank
    let b := Settings.bareAttempt (some "AS1")
    let swapped := [{ b with id := "c", user := some "d" }, { a with id := "b" }]
    Features.ofAttempts swapped = (Features.ofAttempts [a, b]).reorder [1, 0] ∧
      Settings.standard.run ⟨.epoch, 1⟩ [a] swapped =
        (Settings.standard.run ⟨.epoch, 0⟩ [a] [a, b]).map fun o =>
          { o.trainedAt .epoch with scored := Scored.assign swapped (reorder [1, 0] o.scored) } := by
  intro a b swapped
  have h : Reordered [1, 0] [a, b] swapped := ⟨.swap 0 1 [], rfl⟩
  obtain ⟨hfeatures, -, -, hrun, -⟩ := scores_of_reordered h
  exact ⟨hfeatures, hrun .standard ⟨.epoch, 0⟩ ⟨.epoch, 1⟩ [a] (List.cons_ne_nil _ _) rfl⟩

end LoginForest
