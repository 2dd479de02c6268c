/-
  Nothing but the trusted attempts has an influence on the model. Two runs that train on one
  list have the same scaling, the same forest and the same threshold, whatever they score
  (`sameModel_outcomeOf`); and what a history trusts does not change with the attempts that its
  policy does not trust.
-/
import LoginForest.Proofs.Scoring.Run
import LoginForest.Proofs.TimeOrder

namespace LoginForest

/-- The models of two outcomes are the same but for the time that they were trained at. -/
structure Outcome.SameModel (a b : Outcome) : Prop where
  scaling : a.bundle.scaling = b.bundle.scaling
  forest : a.bundle.forest = b.bundle.forest
  provenance :
    { a.bundle.provenance with
      trainedAt := b.bundle.provenance.trainedAt
      trainedAt_utc := b.bundle.provenance.trainedAt_utc } = b.bundle.provenance
  training : a.summary.training = b.summary.training
  threshold : a.summary.threshold = b.summary.threshold

namespace Settings

theorem trainingList_of_ne_nil {trusted : List Attempt} (h : trusted ≠ []) (all : List Attempt) :
    trainingList trusted all = trusted := by
  unfold trainingList
  rw [if_neg (by simpa using h)]

/-- What a policy trusts in a history of attempts. -/
theorem trusted_withPolicy (p : TrustPolicy) (attempts : List Attempt) :
    ((History.ofAttempts attempts).withPolicy p).trusted = inTimeOrder (p.select attempts) :=
  p.select_inTimeOrder attempts

theorem attempts_ne_nil_of_trusted {p : TrustPolicy} {attempts : List Attempt}
    (h : inTimeOrder (p.select attempts) ≠ []) :
    ((History.ofAttempts attempts).withPolicy p).attempts ≠ [] := by
  show inTimeOrder attempts ≠ []
  rw [← p.select_inTimeOrder] at h
  intro hnil
  rw [hnil] at h
  exact h rfl

section Runs

variable [Elementary] {s : Settings}

/-- The model of an outcome comes from the list that is trained on. -/
theorem sameModel_outcomeOf (hseed : s.seed.isSome) (occasion occasion' : Occasion)
    {trusted trusted' all all' : List Attempt}
    (h : trainingList trusted all = trainingList trusted' all') :
    (s.outcomeOf occasion trusted all).SameModel (s.outcomeOf occasion' trusted' all') := by
  have hforest := forestOf_seeded hseed occasion.chance occasion'.chance (trainingList trusted all)
  constructor
  case scaling => exact congrArg scalingOf h
  case forest => exact hforest.trans (congrArg (s.forestOf occasion'.chance) h)
  case provenance => simp only [outcomeOf, bundleOf, Provenance.ofSettings, h]
  case training => exact congrArg List.length h
  case threshold =>
    exact congrArg Forest.threshold (hforest.trans (congrArg (s.forestOf occasion'.chance) h))

/-- Runs on one trusted list give one model. -/
theorem sameModel_run (hcheck : s.check = .ok ()) (hseed : s.seed.isSome)
    (occasion occasion' : Occasion) {trusted all all' : List Attempt} (htrusted : trusted ≠ [])
    (hall : all ≠ []) (hall' : all' ≠ []) :
    ∃ a b, s.run occasion trusted all = .ok a ∧ s.run occasion' trusted all' = .ok b ∧
      a.SameModel b := by
  refine ⟨_, _, run_eq occasion trusted hcheck hall, run_eq occasion' trusted hcheck hall', ?_⟩
  apply sameModel_outcomeOf hseed
  rw [trainingList_of_ne_nil htrusted, trainingList_of_ne_nil htrusted]

theorem runHistory_eq (occasion : Occasion) {h : History} (hattempts : h.attempts ≠ []) :
    s.runHistory occasion h = s.run occasion h.trusted h.attempts := by
  unfold runHistory
  rw [if_neg (by simpa using hattempts)]

/-- Histories whose trusted attempts are the same in time order give one model. -/
theorem sameModel_runHistory (hcheck : s.check = .ok ()) (hseed : s.seed.isSome)
    (occasion occasion' : Occasion) {p : TrustPolicy} {l l' : List Attempt}
    (heq : inTimeOrder (p.select l) = inTimeOrder (p.select l'))
    (hne : inTimeOrder (p.select l) ≠ []) :
    ∃ a b, s.runHistory occasion ((History.ofAttempts l).withPolicy p) = .ok a ∧
      s.runHistory occasion' ((History.ofAttempts l').withPolicy p) = .ok b ∧ a.SameModel b := by
  have hl := attempts_ne_nil_of_trusted hne
  have hl' := attempts_ne_nil_of_trusted (heq ▸ hne)
  rw [runHistory_eq occasion hl, runHistory_eq occasion' hl', trusted_withPolicy,
    trusted_withPolicy, ← heq]
  exact sameModel_run hcheck hseed occasion occasion' hne hl hl'

/-- Neither the scored attempts nor untrusted ones have an influence on the model: not the list
that is scored beside a trusted one, not the attempts of a history that are outside its trusted
subsequence, and no number of changes among the attempts that a policy does not trust. -/
theorem model_without_influence (hcheck : s.check = .ok ()) (hseed : s.seed.isSome)
    (occasion occasion' : Occasion) :
    (∀ trusted all all', trusted ≠ [] → all ≠ [] → all' ≠ [] →
      ∃ a b, s.run occasion trusted all = .ok a ∧ s.run occasion' trusted all' = .ok b ∧
        a.SameModel b) ∧
    (∀ (p : TrustPolicy) (l l' : List Attempt),
      inTimeOrder (p.select l) = inTimeOrder (p.select l') → inTimeOrder (p.select l) ≠ [] →
      ∃ a b, s.runHistory occasion ((History.ofAttempts l).withPolicy p) = .ok a ∧
        s.runHistory occasion' ((History.ofAttempts l').withPolicy p) = .ok b ∧ a.SameModel b) ∧
    (∀ (p : TrustPolicy) (l l' : List Attempt), p.Edits l l' → p.select l ≠ [] →
      ∃ a b, s.runHistory occasion ((History.ofAttempts l).withPolicy p) = .ok a ∧
        s.runHistory occasion' ((History.ofAttempts l').withPolicy p) = .ok b ∧
        a.SameModel b) := by
  refine ⟨?_, ?_, ?_⟩
  · intro trusted all all' htrusted hall hall'
    exact sameModel_run hcheck hseed occasion occasion' htrusted hall hall'
  · intro p l l' heq hne
    exact sameModel_runHistory hcheck hseed occasion occasion' heq hne
  · intro p l l' hedits hne
    refine sameModel_runHistory hcheck hseed occasion occasion' (by rw [hedits.select_eq]) ?_
    rwa [ne_eq, inTimeOrder_eq_nil_iff]

end Runs

/-- An attempt of which only the network may be known. -/
def bareAttempt (network : Option String) : Attempt := { Attempt.blank with network }

/-- An attempt from an unknown network put before a trusted one leaves the model as it is. -/
theorem model_beside_untrusted :
    ∃ a b, standard.runHistory ⟨.epoch, 0⟩
        ((History.ofAttempts [bareAttempt (some "AS1")]).withPolicy .empty) = .ok a ∧
      standard.runHistory ⟨.epoch, 1⟩
        ((History.ofAttempts [bareAttempt none, bareAttempt (some "AS1")]).withPolicy .empty) =
          .ok b ∧ a.SameModel b := by
  have hedits : TrustPolicy.empty.Edits [bareAttempt (some "AS1")]
      [bareAttempt none, bareAttempt (some "AS1")] :=
    .step (.refl _) (.insert [] [bareAttempt (some "AS1")] rfl)
  have htrusted : TrustPolicy.empty.select [bareAttempt (some "AS1")] ≠ [] := by
    simp [TrustPolicy.select, TrustPolicy.trusts, TrustPolicy.empty, bareAttempt]
  exact (model_without_influence check_standard rfl _ _).2.2 .empty _ _ hedits htrusted

end Settings

end LoginForest
