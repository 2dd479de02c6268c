/-
  What a bundle tells of its forest. The settings of a run go into the provenance as they are, and
  into the forest by way of a detector, which holds them to what it can work with. Of accepted
  settings it takes the trees and the sample size as they are; but a share below 2^-52, which is
  accepted as well, is lifted to it, and the provenance tells another one (`provenance_of_run`).
-/
import LoginForest.Proofs.Forest.Contamination
import LoginForest.Proofs.Scoring.Rescore

namespace LoginForest

namespace Contamination

/-- The least share that a detector takes. -/
def least : Float := Number.nearest false 1 (Number.twoTo 52)

theorem held_fraction_of_lt {c : Float} (h : c < least) : (fraction c).held = .fraction least :=
  congrArg fraction (if_pos h)

/-- A share up to one half is taken as it is when it is not below the least one. -/
theorem held_fraction_eq_iff {c : Float} (h : Settings.isShare c half) :
    (fraction c).held = .fraction c ↔ least ≤ c := by
  rw [Settings.isShare, Bool.and_eq_true, decide_eq_true_eq, decide_eq_true_eq] at h
  obtain ⟨hleast, -⟩ := IsContamination.value_least
  obtain ⟨e, hheld, he, -⟩ := held_fraction h.1 h.2
  constructor
  · intro heq
    obtain rfl : e = c := fraction.inj (hheld.symm.trans heq)
    rw [least, Number.le_iff_value hleast he.isFinite, IsContamination.value_least.2]
    exact he.ge
  · intro hle
    have hfinite := Number.isFinite_of_le_of_le hleast isFinite_half.1 hle h.2
    have hlow : ¬ c < Number.nearest false 1 (Number.twoTo 52) := by
      rw [Number.lt_iff_value hfinite hleast, not_lt]
      exact (Number.le_iff_value hleast hfinite).mp hle
    have hhigh : ¬ half < c := by
      rw [Number.lt_iff_value isFinite_half.1 hfinite, not_lt]
      exact (Number.le_iff_value hfinite isFinite_half.1).mp h.2
    exact congrArg fraction ((if_neg hlow).trans (if_neg hhigh))

end Contamination

/-- What the provenance of a bundle tells of the growth of its forest. -/
structure Bundle.TellsGrowth [Elementary] (s : Settings) (chance : UInt64) (b : Bundle) : Prop where
  trees : b.provenance.trees = b.forest.trees.length
  trainingRows : ∃ x : Matrix Float, x.height = b.provenance.trainingRows ∧
    s.detector.fitForest chance x = .ok b.forest
  sampleSize : b.forest.sampleSize = s.sampleSize.resolve b.provenance.trainingRows

namespace Settings

theorem sampleSize_detector (s : Settings) : s.detector.sampleSize = s.sampleSize := by
  unfold detector
  cases s.seed <;> cases s.jobs <;> rfl

/-- Accepted settings have a share of anomalies up to one half, if they have one. -/
theorem isShare_of_check {s : Settings} (h : s.check = .ok ()) {c : Float}
    (hc : s.contamination = .fraction c) : isShare c half := by
  rw [check_eq_ok_iff] at h
  unfold problem? at h
  simp only [hc, Option.orElse_eq_none] at h
  by_contra hshare
  simp [hshare] at h

section Runs

variable [Elementary] {s : Settings} {occasion : Occasion} {trusted all : List Attempt}
  {o : Outcome}

theorem contamination_forestOf (s : Settings) (chance : UInt64) (training : List Attempt) :
    (s.forestOf chance training).contamination = s.contamination.held := by
  rw [forestOf, Detector.contamination_grown, contamination_detector]

/-- The forest of accepted settings has the trees and the sample size that they ask for. -/
theorem tellsGrowth_bundleOf {training : List Attempt} (hcheck : s.check = .ok ())
    (htraining : training ≠ []) : (s.bundleOf occasion training).TellsGrowth s occasion.chance := by
  have hheight := height_scaledMatrix training training
  constructor
  case trees =>
    have htrees := (spec_of_check hcheck).1
    have hlength : (s.forestOf occasion.chance training).trees.length = s.detector.trees :=
      Detector.length_trees_grown ..
    rw [trees_detector, Nat.max_eq_left htrees] at hlength
    exact hlength.symm
  case trainingRows =>
    refine ⟨scaledMatrix training training, hheight, Detector.fitForest_eq ?_ ?_⟩
    · rwa [hheight, ne_eq, List.length_eq_zero_iff]
    · rw [contamination_detector]
      exact Contamination.isNumber_held (isNumber_contamination hcheck)
  case sampleSize =>
    have hsize : (s.forestOf occasion.chance training).sampleSize =
        s.detector.sampleSize.resolve (scaledMatrix training training).height :=
      Detector.sampleSize_grown ..
    rwa [sampleSize_detector, hheight] at hsize

/-- The bundle of a run tells the trees of its forest, the rows that it was fitted to, of which
the sample of a tree is taken, and the share that the settings ask for. The forest is held to the
same share exactly when it is no less than 2^-52, and to 2^-52 otherwise. -/
theorem provenance_of_run (h : s.run occasion trusted all = .ok o) :
    o.bundle.TellsGrowth s occasion.chance ∧
      o.bundle.provenance.trainingRows = (if trusted.isEmpty then all else trusted).length ∧
      o.bundle.provenance.contamination = s.contamination ∧
      (o.bundle.provenance.contamination = o.bundle.forest.contamination ↔
        ∀ c, s.contamination = .fraction c → Contamination.least ≤ c) ∧
      (∀ c, s.contamination = .fraction c → c < Contamination.least →
        o.bundle.forest.contamination = .fraction Contamination.least) := by
  obtain ⟨hall, hcheck, rfl⟩ := run_eq_ok_iff.mp h
  have hheld := s.contamination_forestOf occasion.chance (trainingList trusted all)
  refine ⟨tellsGrowth_bundleOf hcheck (trainingList_ne_nil trusted hall), rfl, rfl, ?_, ?_⟩
  · show s.contamination = (s.forestOf occasion.chance (trainingList trusted all)).contamination ↔ _
    rw [hheld, eq_comm]
    cases hc : s.contamination with
    | auto =>
      refine ⟨fun _ c hauto => ?_, fun _ => rfl⟩
      cases hauto
    | fraction c =>
      rw [Contamination.held_fraction_eq_iff (isShare_of_check hcheck hc)]
      constructor
      · rintro hle _ ⟨⟩
        exact hle
      · intro hle
        exact hle c rfl
  · intro c hc hlow
    rw [← Contamination.held_fraction_of_lt hlow, ← hc]
    exact hheld

end Runs

/-- A run on five attempts, four of them trusted, of which the bundle tells all of its forest. -/
theorem provenance_of_run_fiveLogins : ∃ o,
    @run Elementary.series fewTrees ⟨.epoch, 0⟩ (fiveLogins.take 4) fiveLogins = .ok o ∧
      @Bundle.TellsGrowth Elementary.series fewTrees 0 o.bundle ∧
      o.bundle.provenance.trainingRows = 4 ∧ o.bundle.provenance.trees = 5 ∧
      o.bundle.provenance.contamination = o.bundle.forest.contamination := by
  have hrun := @run_eq Elementary.series fewTrees ⟨.epoch, 0⟩ (fiveLogins.take 4) fiveLogins
    check_fewTrees (List.cons_ne_nil _ _)
  obtain ⟨hgrowth, hrows, -, hshare, -⟩ := @provenance_of_run Elementary.series fewTrees
    ⟨.epoch, 0⟩ (fiveLogins.take 4) fiveLogins _ hrun
  refine ⟨_, hrun, hgrowth, hrows, rfl, hshare.mpr ?_⟩
  rintro c hc
  obtain rfl : Number.ofDecimal false 2 (-1) = c := Contamination.fraction.inj hc
  decide +kernel

/-- The standard settings with a share of 10^-20. -/
def tinyShare : Settings :=
  { standard with contamination := .fraction (Number.ofDecimal false 1 (-20)) }

/-- A share of 10^-20 is accepted and told, and the forest has another one. -/
theorem tinyShare_misstated : tinyShare.check = .ok () ∧ ∃ o,
    @run Elementary.series tinyShare ⟨.epoch, 0⟩ [] fiveLogins = .ok o ∧
      o.bundle.provenance.contamination = .fraction (Number.ofDecimal false 1 (-20)) ∧
      o.bundle.forest.contamination = .fraction Contamination.least ∧
      o.bundle.provenance.contamination ≠ o.bundle.forest.contamination := by
  have hcheck : tinyShare.check = .ok () := by
    rw [check_eq_ok_iff]
    decide +kernel
  have hrun := @run_eq Elementary.series tinyShare ⟨.epoch, 0⟩ [] fiveLogins hcheck
    (List.cons_ne_nil _ _)
  have hlow : Number.ofDecimal false 1 (-20) < Contamination.least := by decide +kernel
  have hforest := (@contamination_forestOf Elementary.series tinyShare 0
    (trainingList [] fiveLogins)).trans (Contamination.held_fraction_of_lt hlow)
  refine ⟨hcheck, _, hrun, rfl, hforest, fun heq => ?_⟩
  have hbits := congrArg Float.toBits (Contamination.fraction.inj (heq.trans hforest))
  revert hbits
  decide +kernel

end Settings

end LoginForest
