/-
  A bundle scores as the run did that it is from. The run scores with its scaler and its detector,
  the bundle with what was taken out of both; on every list of attempts the two give the same
  scores and the same flags (`scoreAttempts_bundleOf`), and so on the list that the run scored
  (`bundle_rescores`).
-/
import LoginForest.Proofs.Scoring.Reopen

namespace LoginForest

namespace Settings

section Runs

variable [Elementary] {s : Settings} {occasion : Occasion} {trusted all : List Attempt}
  {o : Outcome}

/-- A run that gives an outcome had accepted settings and something to score. -/
theorem run_eq_ok_iff : s.run occasion trusted all = .ok o ↔
    all ≠ [] ∧ s.check = .ok () ∧ o = s.outcomeOf occasion trusted all := by
  constructor
  · intro h
    have hall : all ≠ [] := by
      rintro rfl
      cases h
    cases hcheck : s.check with
    | error e =>
      rw [run_of_check_error occasion trusted hall hcheck] at h
      cases h
    | ok _ =>
      rw [run_eq occasion trusted hcheck hall] at h
      exact ⟨hall, rfl, (Except.ok.inj h).symm⟩
  · rintro ⟨hall, hcheck, rfl⟩
    exact run_eq occasion trusted hcheck hall

/-! ## Scoring with what was taken out -/

/-- The scaling and the forest of a bundle score features as the scaler and the detector do. -/
theorem scoreMatrix_bundleOf (s : Settings) (occasion : Occasion)
    (training attempts : List Attempt) :
    (s.bundleOf occasion training).scoreMatrix (Features.ofAttempts attempts).matrix =
      let scores := s.scoresOf occasion.chance training attempts
      .ok (scores, (s.forestOf occasion.chance training).flag scores) := by
  have hscaled : (s.bundleOf occasion training).scaling.transform
      (Features.ofAttempts attempts).matrix = .ok (scaledMatrix training attempts) :=
    transform_scalerOf training attempts
  have hscore : (s.bundleOf occasion training).forest.score (scaledMatrix training attempts) =
      .ok (s.scoresOf occasion.chance training attempts) :=
    s.score_forestOf occasion.chance training attempts
  unfold Bundle.scoreMatrix
  rw [hscaled, Except.ok_bind, hscore]
  rfl

theorem scoreAttempts_bundleOf (s : Settings) (occasion : Occasion) (training : List Attempt)
    {attempts : List Attempt} (h : attempts ≠ []) :
    (s.bundleOf occasion training).scoreAttempts attempts =
      let scores := s.scoresOf occasion.chance training attempts
      .ok (Scored.zip attempts scores ((s.forestOf occasion.chance training).flag scores)) := by
  unfold Bundle.scoreAttempts
  rw [if_neg (by simpa using h), scoreMatrix_bundleOf]
  rfl

/-! ## The run and its bundle -/

/-- The bundle that a run returns scores the attempts of the run as it did, in their order. -/
theorem scoreAttempts_of_run (h : s.run occasion trusted all = .ok o) :
    o.bundle.scoreAttempts all = .ok o.scored ∧ o.scored.map (·.attempt) = all := by
  obtain ⟨hall, -, rfl⟩ := run_eq_ok_iff.mp h
  exact ⟨s.scoreAttempts_bundleOf occasion _ hall,
    (s.accounts_outcomeOf occasion trusted all).attempts⟩

/-- The document of the bundle is read back when no coordinate that is trained on is large. -/
theorem ofJson_of_run [Elementary.Lawful] (h : s.run occasion trusted all = .ok o)
    (htrees : s.trees < Number.twoTo 64) (hlength : (trainingList trusted all).length ≤ 2 ^ 60)
    (hnear : ∀ a ∈ trainingList trusted all, a.NearOrigin) :
    Bundle.ofJson o.bundle.toJson = .ok o.bundle := by
  obtain ⟨hall, hcheck, rfl⟩ := run_eq_ok_iff.mp h
  have hstorable := storable_bundleOf occasion hcheck htrees (trainingList_ne_nil trusted hall)
    hlength
  exact (hstorable.ofJson_iff (isFinite_spread_drop hlength)).1.mpr
    (isFinite_spread_take hlength hnear)

/-- The scores and the flags of an outcome, as the forest gives them. -/
theorem scores_flags_outcomeOf (s : Settings) (occasion : Occasion) (trusted all : List Attempt) :
    let training := trainingList trusted all
    let scores := s.scoresOf occasion.chance training all
    (s.outcomeOf occasion trusted all).scores = scores ∧
      (s.outcomeOf occasion trusted all).flags =
        (s.forestOf occasion.chance training).flag scores := by
  have hscores := s.length_scoresOf occasion.chance (trainingList trusted all) all
  have hflags := ((s.forestOf occasion.chance (trainingList trusted all)).length_flag
    (s.scoresOf occasion.chance (trainingList trusted all) all)).trans hscores
  exact ⟨Scored.map_score_zip hscores hflags, Scored.map_flagged_zip hscores hflags⟩

/-- The bundle that a run returns scores what the run has scored: the attempts in their order
with the scores and flags of the run, and their features with the same scores and flags. -/
theorem bundle_rescores (h : s.run occasion trusted all = .ok o) :
    o.bundle.scoreAttempts all = .ok o.scored ∧ o.scored.map (·.attempt) = all ∧
      o.bundle.scoreMatrix (Features.ofAttempts all).matrix = .ok (o.scores, o.flags) := by
  obtain ⟨hscored, hattempts⟩ := scoreAttempts_of_run h
  refine ⟨hscored, hattempts, ?_⟩
  obtain ⟨-, -, rfl⟩ := run_eq_ok_iff.mp h
  obtain ⟨hscores, hflags⟩ := s.scores_flags_outcomeOf occasion trusted all
  rw [hscores, hflags]
  exact s.scoreMatrix_bundleOf occasion _ all

end Runs

/-- The model of four trusted attempts scores them and a later one as the run did. -/
theorem bundle_rescores_fiveLogins : ∃ o,
    @run Elementary.series fewTrees ⟨.epoch, 0⟩ (fiveLogins.take 4) fiveLogins = .ok o ∧
      @Bundle.scoreAttempts Elementary.series o.bundle fiveLogins = .ok o.scored ∧
      o.scored.map (·.attempt) = fiveLogins ∧
      @Bundle.scoreMatrix Elementary.series o.bundle
          (@Features.ofAttempts Elementary.series fiveLogins).matrix =
        .ok (o.scores, o.flags) := by
  have hrun := @run_eq Elementary.series fewTrees ⟨.epoch, 0⟩ (fiveLogins.take 4) fiveLogins
    check_fewTrees (List.cons_ne_nil _ _)
  exact ⟨_, hrun, @bundle_rescores Elementary.series fewTrees ⟨.epoch, 0⟩ (fiveLogins.take 4)
    fiveLogins _ hrun⟩

end Settings

end LoginForest
