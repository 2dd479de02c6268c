/-
  Where the trusted attempts of a history come from. A history is in time order, and selecting
  commutes with sorting, which is stable: the attempts that a policy trusts in a history are those
  that it trusts in the list, in time order. So it is one whether the policy is left to a history
  or its selection is handed over (`History.trusted_commutes`), for the list that is trained on and
  its order, and with these for the run.
-/
import LoginForest.Proofs.Scoring.Influence

namespace LoginForest

/-! ## Policies -/

theorem mem_insertName {name n : String} {names : List String} :
    n ∈ insertName name names ↔ n = name ∨ n ∈ names := by
  induction names with
  | nil => exact List.mem_cons
  | cons m names ih =>
    unfold insertName
    split
    · exact List.mem_cons
    · split
      case isTrue heq =>
        subst heq
        rw [List.mem_cons, ← or_assoc, or_self]
      case isFalse => rw [List.mem_cons, ih, List.mem_cons, or_left_comm]

namespace TrustPolicy

/-- A network that is known and not excluded. -/
theorem trusts_eq (p : TrustPolicy) (a : Attempt) :
    p.trusts a = a.network.any fun name => decide (name ∉ p.excluded) := by
  unfold trusts
  cases a.network with
  | none => rfl
  | some name => simp

/-- One more network excluded is trusted no longer; nothing changes for the others. -/
theorem trusts_exclude (p : TrustPolicy) (name : String) (a : Attempt) :
    (p.exclude name).trusts a = (decide (a.network ≠ some name) && p.trusts a) := by
  rw [trusts_eq, trusts_eq]
  cases a.network with
  | none => simp
  | some n => simp [exclude, mem_insertName]

theorem select_exclude (p : TrustPolicy) (name : String) (attempts : List Attempt) :
    (p.exclude name).select attempts =
      (p.select attempts).filter fun a => a.network ≠ some name := by
  unfold select
  rw [List.filter_filter]
  exact List.filter_congr fun a _ => p.trusts_exclude name a

end TrustPolicy

/-! ## Runs of a history -/

namespace Settings

variable [Elementary] {s : Settings}

/-- A run sees of a history its attempts and the trusted ones. -/
theorem runHistory_congr (s : Settings) (occasion : Occasion) {h h' : History}
    (hattempts : h.attempts = h'.attempts) (htrusted : h.trusted = h'.trusted) :
    s.runHistory occasion h = s.runHistory occasion h' := by
  unfold runHistory
  rw [hattempts, htrusted]

theorem outcomeOf_later {occasion later : Occasion}
    (h : s.seed.isSome ∨ later.chance = occasion.chance) (trusted all : List Attempt) :
    s.outcomeOf later trusted all = (s.outcomeOf occasion trusted all).trainedAt later.now := by
  have hforest : s.forestOf later.chance (trainingList trusted all) =
      s.forestOf occasion.chance (trainingList trusted all) := by
    rcases h with hseed | hchance
    · exact forestOf_seeded hseed later.chance occasion.chance _
    · rw [hchance]
  simp only [outcomeOf, bundleOf, scoresOf, hforest]
  rfl

/-- A run at another time gives the same but for this time, as long as it draws the same seeds. -/
theorem run_later {occasion later : Occasion}
    (h : s.seed.isSome ∨ later.chance = occasion.chance) (trusted all : List Attempt) :
    s.run later trusted all =
      (s.run occasion trusted all).map fun o => o.trainedAt later.now := by
  by_cases hall : all = []
  · subst hall
    rfl
  · cases hcheck : s.check with
    | error e =>
      rw [run_of_check_error later trusted hall hcheck,
        run_of_check_error occasion trusted hall hcheck]
      rfl
    | ok _ =>
      rw [run_eq later trusted hcheck hall, run_eq occasion trusted hcheck hall, outcomeOf_later h]
      rfl

theorem runHistory_later {occasion later : Occasion}
    (hdraws : s.seed.isSome ∨ later.chance = occasion.chance) (h : History) :
    s.runHistory later h = (s.runHistory occasion h).map fun o => o.trainedAt later.now := by
  by_cases hattempts : h.attempts = []
  · unfold runHistory
    rw [hattempts]
    rfl
  · rw [runHistory_eq later hattempts, runHistory_eq occasion hattempts, run_later hdraws]

end Settings

namespace History

/-- A history of attempts with a policy that says which are trusted. -/
def derived (p : TrustPolicy) (attempts : List Attempt) : History :=
  (ofAttempts attempts).withPolicy p

/-- The ways to hand over what a policy selects, beside any policy. -/
inductive HandsOver (p : TrustPolicy) (attempts : List Attempt) : History → Prop
  | alone : HandsOver p attempts ((ofAttempts attempts).withTrusted (p.select attempts))
  | before (q : TrustPolicy) :
    HandsOver p attempts (((ofAttempts attempts).withTrusted (p.select attempts)).withPolicy q)
  | after (q : TrustPolicy) :
    HandsOver p attempts (((ofAttempts attempts).withPolicy q).withTrusted (p.select attempts))

/-- What is handed over is what the policy would have selected. -/
theorem HandsOver.eq_derived {p : TrustPolicy} {attempts : List Attempt} {h : History}
    (hh : HandsOver p attempts h) : h.attempts = (derived p attempts).attempts ∧
      h.trusted = (derived p attempts).trusted := by
  have htrusted : inTimeOrder (p.select attempts) = (derived p attempts).trusted :=
    (p.select_inTimeOrder attempts).symm
  cases hh <;> exact ⟨rfl, htrusted⟩

/-- The attempts of a history are sorted stably by their instants. Trusted are those of them whose
network is known and not excluded, which is the history of what the policy selects from the list.
Whether this is handed over, before or after any policy, or the policy is left to select it, the
runs have one outcome: but for the time, where the settings have a seed or draw the same one. A
network excluded besides takes away its attempts and no others. -/
theorem trusted_commutes [Elementary] (p : TrustPolicy) (attempts : List Attempt) :
    StablyOrdered (fun a b => a.time.notAfter b.time) attempts (ofAttempts attempts).attempts ∧
    (derived p attempts).trusted = (ofAttempts attempts).attempts.filter
      (fun a => a.network.any fun name => decide (name ∉ p.excluded)) ∧
    (derived p attempts).trusted = (ofAttempts (p.select attempts)).attempts ∧
    (∀ h, HandsOver p attempts h → h.attempts = (derived p attempts).attempts ∧
      h.trusted = (derived p attempts).trusted ∧
      ∀ (s : Settings) (occasion later : Occasion),
        s.seed.isSome ∨ later.chance = occasion.chance →
          s.runHistory later h = (s.runHistory occasion (derived p attempts)).map
            fun o => o.trainedAt later.now) ∧
    ∀ name, (derived (p.exclude name) attempts).trusted =
      (derived p attempts).trusted.filter fun a => a.network ≠ some name := by
  refine ⟨stablyOrdered_inTimeOrder attempts, ?_, p.select_inTimeOrder attempts, ?_, ?_⟩
  · exact List.filter_congr fun a _ => p.trusts_eq a
  · intro h hh
    obtain ⟨hattempts, htrusted⟩ := hh.eq_derived
    refine ⟨hattempts, htrusted, fun s occasion later hdraws => ?_⟩
    rw [Settings.runHistory_later hdraws, Settings.runHistory_congr s occasion hattempts htrusted]
  · intro name
    exact p.select_exclude name (inTimeOrder attempts)

/-- Two attempts, one from an excluded network: seeded runs at two times have the same outcome,
whether the trusted one is handed over or selected. -/
theorem trusted_commutes_seeded :
    let p := TrustPolicy.empty.exclude "AS1"
    let attempts := [Settings.bareAttempt (some "AS1"), Settings.bareAttempt (some "AS2")]
    let h := ((ofAttempts attempts).withTrusted (p.select attempts)).withPolicy .standard
    Settings.standard.seed.isSome ∧ h.trusted = (derived p attempts).trusted ∧
      Settings.standard.runHistory ⟨.epoch, 1⟩ h =
        (Settings.standard.runHistory ⟨.epoch, 0⟩ (derived p attempts)).map
          fun o => o.trainedAt .epoch := by
  intro p attempts h
  have hseed : Settings.standard.seed.isSome := rfl
  obtain ⟨-, -, -, hruns, -⟩ := trusted_commutes p attempts
  obtain ⟨-, htrusted, hrun⟩ := hruns h (.before .standard)
  exact ⟨hseed, htrusted, hrun .standard ⟨.epoch, 0⟩ ⟨.epoch, 1⟩ (.inl hseed)⟩

end History

end LoginForest
