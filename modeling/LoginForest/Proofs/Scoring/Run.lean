/-
  What a run computes. Once the settings are accepted and there is an attempt to score, no stage
  can fail: every matrix has the ten feature columns, no tree asks for another one, the training
  list is not empty, and the contamination is a number. So a run has one outcome that can be
  written down (`run_eq`), and what a run keeps account of is read off it (`run_total`).
-/
import LoginForest.Proofs.Forest.Growth
import LoginForest.Proofs.Number.Value
import LoginForest.Proofs.Results
import LoginForest.Scoring.Run

namespace LoginForest

/-! ## Stages that cannot fail -/

theorem Scaling.length_ofMatrix {α : Type} [Scalar α] (lower upper : α) (x : Matrix α) :
    (Scaling.ofMatrix lower upper x).columns.length = x.width := by
  simp [Scaling.ofMatrix]

theorem Scaling.height_apply {α : Type} [Scalar α] (s : Scaling α) (x : Matrix α)
    (h : s.columns.length = x.width) : (s.apply x h).height = x.height :=
  Matrix.height_zipColumns ..

theorem Scaling.transform_eq {α : Type} [Scalar α] {s : Scaling α} {x : Matrix α}
    (h : s.columns.length = x.width) : s.transform x = .ok (s.apply x h) :=
  dif_pos h

theorem Forest.width_calibrate [Elementary] (f : Forest) (x : Matrix Float) :
    (f.calibrate x).width = f.width := by
  unfold Forest.calibrate
  cases f.contamination <;> rfl

theorem Detector.width_grown [Elementary] (d : Detector) (chance : UInt64) (x : Matrix Float) :
    (d.grown chance x).width = x.width :=
  Forest.width_calibrate _ x

/-- A contamination that is a number if it is a fraction. -/
def Contamination.IsNumber : Contamination → Prop
  | .auto => True
  | .fraction c => c.isNaN = false

theorem Contamination.isNumber_held {c : Contamination} (h : c.IsNumber) : c.held.IsNumber := by
  cases c with
  | auto => trivial
  | fraction c =>
    have hlow : (Number.nearest false 1 (Number.twoTo 52)).isNaN = false := by decide +kernel
    have hhigh : (Number.nearest false 1 2).isNaN = false := by decide +kernel
    simp only [held, IsNumber]
    split
    · exact hlow
    · split
      · exact hhigh
      · exact h

theorem Detector.fitForest_eq [Elementary] {d : Detector} {chance : UInt64} {x : Matrix Float}
    (hx : x.height ≠ 0) (hc : d.contamination.IsNumber) :
    d.fitForest chance x = .ok (d.grown chance x) := by
  unfold fitForest
  rw [if_neg hx]
  cases h : d.contamination with
  | auto => rfl
  | fraction c =>
    rw [h, Contamination.IsNumber] at hc
    dsimp only
    rw [hc, if_neg Bool.false_ne_true]

/-! ## Attempts -/

/-- An attempt of which nothing is known besides its time. -/
def Attempt.blank : Attempt where
  id := "a"
  user := none
  success := true
  address := none
  country := none
  city := none
  network := none
  latitude := none
  longitude := none
  time := .epoch

namespace Scored

section Zip

variable {attempts : List Attempt} {scores : List Float} {flags : List Bool}

theorem zip_eq_map (attempts : List Attempt) (scores : List Float) (flags : List Bool) :
    zip attempts scores flags =
      (attempts.zip (scores.zip flags)).map fun r => ⟨r.1, r.2.1, r.2.2⟩ := by
  rw [List.map_zip_eq_zipWith]
  rfl

theorem map_attempt_zip (hs : scores.length = attempts.length)
    (hf : flags.length = attempts.length) :
    (zip attempts scores flags).map (·.attempt) = attempts := by
  rw [zip_eq_map, List.map_map]
  exact List.map_fst_zip (by simp [hs, hf])

theorem map_pair_zip (hs : scores.length = attempts.length) (hf : flags.length = attempts.length) :
    (zip attempts scores flags).map (fun r => (r.score, r.flagged)) = scores.zip flags := by
  rw [zip_eq_map, List.map_map]
  exact List.map_snd_zip (by simp [hs, hf])

theorem map_score_zip (hs : scores.length = attempts.length)
    (hf : flags.length = attempts.length) :
    (zip attempts scores flags).map (·.score) = scores := by
  have hpairs := congrArg (List.map Prod.fst) (map_pair_zip hs hf)
  rw [List.map_map, List.map_fst_zip (by rw [hs, hf])] at hpairs
  exact hpairs

theorem map_flagged_zip (hs : scores.length = attempts.length)
    (hf : flags.length = attempts.length) :
    (zip attempts scores flags).map (·.flagged) = flags := by
  have hpairs := congrArg (List.map Prod.snd) (map_pair_zip hs hf)
  rw [List.map_map, List.map_snd_zip (by rw [hs, hf])] at hpairs
  exact hpairs

end Zip

/-- Flags made from the scores stand beside the scores that they are made from. -/
theorem flagged_of_mem_zip {attempts : List Attempt} {scores : List Float} {test : Float → Bool}
    {r : Scored} (h : r ∈ zip attempts scores (scores.map test)) : r.flagged = test r.score := by
  induction attempts generalizing scores with
  | nil => cases h
  | cons a attempts ih =>
    cases scores with
    | nil => cases h
    | cons score scores =>
      rcases List.mem_cons.mp h with rfl | htail
      · rfl
      · exact ih htail

end Scored

namespace Settings

/-! ## Accepted settings -/

theorem check_eq_ok_iff {s : Settings} : s.check = .ok () ↔ s.problem? = none := by
  unfold check
  cases s.problem? <;> simp

theorem check_eq_error_iff {s : Settings} {e : Error} :
    s.check = .error e ↔ ∃ p, s.problem? = some p ∧ e = .parameter p := by
  unfold check
  cases s.problem? <;> simp [eq_comm]

theorem isNumber_of_isShare {c limit : Float} (h : isShare c limit) : c.isNaN = false := by
  rw [isShare, Bool.and_eq_true, decide_eq_true_eq] at h
  exact Bool.eq_false_iff.mpr (Number.not_isNaN_of_lt h.1).2

/-- Accepted settings have a contamination that is a number. -/
theorem isNumber_contamination {s : Settings} (h : s.check = .ok ()) :
    s.contamination.IsNumber := by
  rw [check_eq_ok_iff] at h
  unfold problem? at h
  cases hc : s.contamination with
  | auto => trivial
  | fraction c =>
    simp only [hc, Option.orElse_eq_none] at h
    by_cases hshare : isShare c half
    · exact isNumber_of_isShare hshare
    · simp [hshare] at h

/-- The standard settings are accepted. -/
theorem check_standard : standard.check = .ok () := by
  rw [check_eq_ok_iff]
  decide +kernel

theorem contamination_detector (s : Settings) :
    s.detector.contamination = s.contamination.held := by
  unfold detector
  cases s.seed <;> cases s.jobs <;> rfl

theorem seed_detector (s : Settings) : s.detector.seed = s.seed := by
  unfold detector
  cases s.seed <;> cases s.jobs <;> rfl

/-! ## The outcome of a run -/

/-- The attempts that a run trains on. -/
def trainingList (trusted all : List Attempt) : List Attempt :=
  if trusted.isEmpty then all else trusted

theorem trainingList_ne_nil (trusted : List Attempt) {all : List Attempt} (h : all ≠ []) :
    trainingList trusted all ≠ [] := by
  unfold trainingList
  cases trusted <;> simp [h]

variable [Elementary]

/-- The scaling that attempts are trained with. -/
def scalingOf (training : List Attempt) : Scaling Float :=
  .ofMatrix Scaler.standard.lower Scaler.standard.upper (Features.ofAttempts training).matrix

theorem length_scalingOf (training attempts : List Attempt) :
    (scalingOf training).columns.length = (Features.ofAttempts attempts).matrix.width :=
  (Scaling.length_ofMatrix ..).trans <| by
    rw [Features.width_ofAttempts, Features.width_ofAttempts]

/-- The features of attempts, scaled by those that are trained on. -/
def scaledMatrix (training attempts : List Attempt) : Matrix Float :=
  (scalingOf training).apply (Features.ofAttempts attempts).matrix
    (length_scalingOf training attempts)

theorem height_scaledMatrix (training attempts : List Attempt) :
    (scaledMatrix training attempts).height = attempts.length := by
  unfold scaledMatrix
  rw [Scaling.height_apply, Features.height_ofAttempts]

theorem width_scaledMatrix (training attempts : List Attempt) :
    (scaledMatrix training attempts).width = featureNames.length := rfl

/-- The forest that is grown on attempts. -/
def forestOf (s : Settings) (chance : UInt64) (training : List Attempt) : Forest :=
  s.detector.grown chance (scaledMatrix training training)

theorem width_forestOf (s : Settings) (chance : UInt64) (training : List Attempt) :
    (s.forestOf chance training).width = featureNames.length :=
  Detector.width_grown ..

theorem fits_forestOf (s : Settings) (chance : UInt64) (training : List Attempt) :
    (s.forestOf chance training).Fits :=
  Detector.fits_grown s.detector chance (scaledMatrix training training)

/-- The fitted scaler. -/
def scalerOf (training : List Attempt) : Scaler :=
  { Scaler.standard with scaling := some (scalingOf training) }

theorem transform_scalerOf (training attempts : List Attempt) :
    (scalerOf training).transform (Features.ofAttempts attempts).matrix =
      .ok (scaledMatrix training attempts) :=
  Scaling.transform_eq (length_scalingOf training attempts)

/-- The fitted detector. -/
def detectorOf (s : Settings) (chance : UInt64) (training : List Attempt) : Detector :=
  { s.detector with model := some (s.forestOf chance training) }

/-- The bundle of the attempts that are trained on. -/
def bundleOf (s : Settings) (occasion : Occasion) (training : List Attempt) : Bundle where
  provenance := .ofSettings s training.length occasion.now
  scaling := scalingOf training
  forest := s.forestOf occasion.chance training

/-- The scores of attempts. -/
def scoresOf (s : Settings) (chance : UInt64) (training attempts : List Attempt) : List Float :=
  (scaledMatrix training attempts).rows.map (s.forestOf chance training).scoreRow

theorem length_scoresOf (s : Settings) (chance : UInt64) (training attempts : List Attempt) :
    (s.scoresOf chance training attempts).length = attempts.length := by
  unfold scoresOf
  rw [List.length_map]
  exact height_scaledMatrix training attempts

/-- The forest of a run scores every list of attempts. -/
theorem score_forestOf (s : Settings) (chance : UInt64) (training attempts : List Attempt) :
    (s.forestOf chance training).score (scaledMatrix training attempts) =
      .ok (s.scoresOf chance training attempts) :=
  (s.fits_forestOf chance training).score_eq <| by rw [width_scaledMatrix, width_forestOf]

theorem detect_detectorOf (s : Settings) (chance : UInt64) (training attempts : List Attempt) :
    (s.detectorOf chance training).detect (scaledMatrix training attempts) =
      let f := s.forestOf chance training
      let scores := s.scoresOf chance training attempts
      .ok ⟨scores, f.flag scores, f.threshold, (f.flag scores).countP id⟩ := by
  have hscore : (s.detectorOf chance training).score (scaledMatrix training attempts) =
      .ok (s.scoresOf chance training attempts) := s.score_forestOf chance training attempts
  unfold Detector.detect
  rw [hscore]
  rfl

/-- What a run gives when nothing is wrong with its settings. -/
def outcomeOf (s : Settings) (occasion : Occasion) (trusted all : List Attempt) : Outcome :=
  let training := trainingList trusted all
  let forest := s.forestOf occasion.chance training
  let scores := s.scoresOf occasion.chance training all
  { scored := Scored.zip all scores (forest.flag scores)
    bundle := s.bundleOf occasion training
    fallback := trusted.isEmpty
    summary :=
      { records := all.length
        training := training.length
        flagged := (forest.flag scores).countP id
        threshold := forest.threshold } }

/-- Scaling and forest can be fitted to a list that is not empty. -/
theorem fit_eq {s : Settings} (occasion : Occasion) {training : List Attempt}
    (hcheck : s.check = .ok ()) (htraining : training ≠ []) :
    s.fit occasion (Features.ofAttempts training).matrix =
      .ok (scalerOf training, s.detectorOf occasion.chance training) := by
  have hlength : training.length ≠ 0 := by rwa [ne_eq, List.length_eq_zero_iff]
  have hscaler : Scaler.standard.fit (Features.ofAttempts training).matrix =
      .ok (scalerOf training) := by
    unfold Scaler.fit Scaling.fit
    rw [if_neg (by rwa [Features.height_ofAttempts])]
    rfl
  have hnumber : s.detector.contamination.IsNumber := by
    rw [contamination_detector]
    exact Contamination.isNumber_held (isNumber_contamination hcheck)
  have hforest : s.detector.fit occasion.chance (scaledMatrix training training) =
      .ok (s.detectorOf occasion.chance training) := by
    unfold Detector.fit
    rw [Detector.fitForest_eq (by rwa [height_scaledMatrix]) hnumber]
    rfl
  simp only [fit, hscaler, transform_scalerOf, hforest, Except.ok_bind]
  rfl

theorem run_nil (s : Settings) (occasion : Occasion) (trusted : List Attempt) :
    s.run occasion trusted [] = .error (.empty .score) := rfl

theorem run_of_check_error {s : Settings} {e : Error} (occasion : Occasion)
    (trusted : List Attempt) {all : List Attempt} (hall : all ≠ []) (h : s.check = .error e) :
    s.run occasion trusted all = .error e := by
  unfold run
  rw [if_neg (by simpa using hall), h]
  rfl

/-- With accepted settings and something to score, a run gives its outcome. -/
theorem run_eq {s : Settings} (occasion : Occasion) (trusted : List Attempt)
    {all : List Attempt} (hcheck : s.check = .ok ()) (hall : all ≠ []) :
    s.run occasion trusted all = .ok (s.outcomeOf occasion trusted all) := by
  have hfit := fit_eq occasion hcheck (trainingList_ne_nil trusted hall)
  unfold run
  rw [if_neg (by simpa using hall), hcheck]
  simp only [Except.ok_bind]
  rw [← trainingList, hfit]
  simp only [Except.ok_bind, transform_scalerOf, detect_detectorOf]
  rfl

end Settings

/-! ## What a run keeps account of -/

/-- The bookkeeping of an outcome: every attempt is scored in its place and flagged by the
threshold of the forest, and the counts are those of the lists that were given. -/
structure Outcome.Accounts (trusted all : List Attempt) (o : Outcome) : Prop where
  attempts : o.scored.map (·.attempt) = all
  flags : ∀ r ∈ o.scored, r.flagged = decide (o.summary.threshold < r.score)
  threshold : o.summary.threshold = o.bundle.forest.threshold
  flagged : o.summary.flagged = o.scored.countP (·.flagged)
  records : o.summary.records = all.length
  fallback : o.fallback = trusted.isEmpty
  training : o.summary.training = if trusted.isEmpty then all.length else trusted.length
  scalingWidth : o.bundle.scaling.width = 10
  forestWidth : o.bundle.forest.width = 10

/-- The outcome as trained at another time. -/
def Outcome.trainedAt (now : Time.Timestamp) (o : Outcome) : Outcome :=
  { o with
    bundle := { o.bundle with
      provenance := { o.bundle.provenance with
        trainedAt := now.toUtc
        trainedAt_utc := now.offset_toUtc } } }

namespace Settings

variable [Elementary]

theorem accounts_outcomeOf (s : Settings) (occasion : Occasion) (trusted all : List Attempt) :
    (s.outcomeOf occasion trusted all).Accounts trusted all := by
  have hscores := s.length_scoresOf occasion.chance (trainingList trusted all) all
  have hflags := ((s.forestOf occasion.chance (trainingList trusted all)).length_flag
    (s.scoresOf occasion.chance (trainingList trusted all) all)).trans hscores
  constructor
  case attempts => exact Scored.map_attempt_zip hscores hflags
  case flags =>
    intro r hr
    exact Scored.flagged_of_mem_zip hr
  case threshold => rfl
  case flagged =>
    have hmap := congrArg (List.countP id) (Scored.map_flagged_zip hscores hflags)
    rw [List.countP_map] at hmap
    exact hmap.symm
  case records => rfl
  case fallback => rfl
  case training =>
    show (trainingList trusted all).length = _
    unfold trainingList
    split <;> rfl
  case scalingWidth => exact length_scalingOf (trainingList trusted all) all
  case forestWidth => exact s.width_forestOf occasion.chance (trainingList trusted all)

/-- A seeded forest does not depend on chance. -/
theorem forestOf_seeded {s : Settings} (hseed : s.seed.isSome) (chance chance' : UInt64)
    (training : List Attempt) : s.forestOf chance training = s.forestOf chance' training := by
  obtain ⟨seed, hseed⟩ := Option.isSome_iff_exists.mp hseed
  have hdetector : s.detector.seed = some seed := by rw [seed_detector, hseed]
  simp only [forestOf, Detector.grown, hdetector, Option.getD_some]

/-- Training on all attempts in place of none only changes what is said of the fallback. -/
theorem outcomeOf_fallback {s : Settings} (hseed : s.seed.isSome) (occasion later : Occasion)
    {all : List Attempt} (hall : all ≠ []) :
    s.outcomeOf later all all =
      { (s.outcomeOf occasion [] all).trainedAt later.now with fallback := false } := by
  have hempty : all.isEmpty = false := by simpa using hall
  have hlist : trainingList all all = trainingList [] all := by
    unfold trainingList
    rw [hempty]
    rfl
  have hforest := forestOf_seeded hseed later.chance occasion.chance (trainingList [] all)
  simp only [outcomeOf, hlist, bundleOf, scoresOf, hforest, hempty]
  rfl

/-- A run is refused for want of attempts first, then for its settings as `check` says, and
otherwise gives an outcome with its accounts in order. An empty trusted list stands for all
attempts. -/
theorem run_total (s : Settings) (occasion later : Occasion) (trusted all : List Attempt) :
    (s.run occasion trusted all = .error (.empty .score) ↔ all = []) ∧
      (all ≠ [] → ∀ e, s.run occasion trusted all = .error e ↔ s.check = .error e) ∧
      (∀ e, s.check = .error e → ∃ p, e = .parameter p) ∧
      (all ≠ [] → s.check = .ok () →
        ∃ o, s.run occasion trusted all = .ok o ∧ o.Accounts trusted all) ∧
      (s.seed.isSome →
        s.run later all all = (s.run occasion [] all).map fun o =>
          { o.trainedAt later.now with fallback := false }) := by
  have herror : ∀ e, s.check = .error e → ∃ p, e = .parameter p := by
    intro e he
    obtain ⟨p, -, rfl⟩ := check_eq_error_iff.mp he
    exact ⟨p, rfl⟩
  have hrun : all ≠ [] → ∀ e, s.run occasion trusted all = .error e ↔ s.check = .error e := by
    intro hall e
    refine ⟨fun h => ?_, run_of_check_error occasion trusted hall⟩
    cases hcheck : s.check with
    | error e' =>
      rw [run_of_check_error occasion trusted hall hcheck] at h
      cases h
      rfl
    | ok _ =>
      rw [run_eq occasion trusted hcheck hall] at h
      cases h
  refine ⟨⟨fun h => ?_, ?_⟩, hrun, herror, fun hall hcheck => ?_, fun hseed => ?_⟩
  · by_contra hall
    obtain ⟨p, hp⟩ := herror _ ((hrun hall _).mp h)
    cases hp
  · rintro rfl
    exact run_nil s occasion trusted
  · exact ⟨_, run_eq occasion trusted hcheck hall, accounts_outcomeOf s occasion trusted all⟩
  · by_cases hall : all = []
    · rw [hall, run_nil, run_nil]
      rfl
    · cases hcheck : s.check with
      | error e =>
        rw [run_of_check_error later all hall hcheck, run_of_check_error occasion [] hall hcheck]
        rfl
      | ok _ =>
        rw [run_eq later all hcheck hall, run_eq occasion [] hcheck hall,
          outcomeOf_fallback hseed occasion later hall]
        rfl

end Settings

end LoginForest
