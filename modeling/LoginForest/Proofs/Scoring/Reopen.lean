/-
  Which models can be reopened. Everything that a run stores is finite except for the spreads of
  columns, which can overflow when values lie near both ends of the number range: such a model is
  written without an error and refused as malformed when it is read. A model with finite spreads
  is read back as it was (`reopens_iff_spreads`).
-/
import LoginForest.Proofs.Features
import LoginForest.Proofs.Forest.Scores
import LoginForest.Proofs.Number.Series
import LoginForest.Proofs.Scoring.Run

namespace LoginForest

open Number

/-! ## Accepted settings -/

namespace Settings

theorem trees_detector (s : Settings) : s.detector.trees = max s.trees 1 := by
  unfold detector
  cases s.seed <;> cases s.jobs <;> rfl

theorem bounded_of_isShare {c : Float} (h : isShare c half) : Within 0 c := by
  rw [isShare, Bool.and_eq_true, decide_eq_true_eq, decide_eq_true_eq] at h
  obtain ⟨hlow, hhigh⟩ := h
  have hfinite := isFinite_of_le_of_le isFinite_zero isFinite_half.1 (le_of_lt hlow) hhigh
  rw [lt_iff_value isFinite_zero hfinite, value_zero] at hlow
  rw [le_iff_value hfinite isFinite_half.1, isFinite_half.2] at hhigh
  refine ⟨hfinite, ?_⟩
  rw [zpow_zero, abs_of_pos hlow]
  linarith

/-- Accepted settings have a positive number of trees and a contamination of one half at most. -/
theorem spec_of_check {s : Settings} (h : s.check = .ok ()) :
    1 ≤ s.trees ∧ s.contamination.Bounded := by
  rw [check_eq_ok_iff] at h
  unfold problem? at h
  simp only [Option.orElse_eq_none] at h
  refine ⟨?_, ?_⟩
  · by_contra h0
    have hzero : s.trees = 0 := by omega
    simp [hzero] at h
  · cases hc : s.contamination with
    | auto => trivial
    | fraction c =>
      rw [hc] at h
      by_cases hshare : isShare c half
      · exact bounded_of_isShare hshare
      · simp [hshare] at h

end Settings

/-! ## What a run stores -/

theorem Matrix.mem_column {α : Type} {x : Matrix α} {j : Nat} {v : α} (h : v ∈ x.column j) :
    ∃ row ∈ x.rows, v ∈ row := by
  obtain ⟨row, hrow, hv⟩ := List.mem_filterMap.mp h
  exact ⟨row, hrow, List.mem_of_getElem? hv⟩

theorem Matrix.length_column_le {α : Type} (x : Matrix α) (j : Nat) :
    (x.column j).length ≤ x.height :=
  List.length_filterMap_le ..

/-- The medians of a matrix of finite numbers are finite. -/
theorem Scaling.isFinite_median_ofMatrix {x : Matrix Float} (hheight : x.height ≤ 2 ^ 60)
    (hx : ∀ row ∈ x.rows, ∀ v ∈ row, v.isFinite) (lower upper : Float) :
    ∀ c ∈ (Scaling.ofMatrix lower upper x).columns, c.median.isFinite := by
  intro c hc
  obtain ⟨j, -, rfl⟩ := List.mem_map.mp hc
  refine isFinite_columnMedian ?_ ((x.length_column_le j).trans hheight)
  intro v hv
  obtain ⟨row, hrow, hmem⟩ := Matrix.mem_column hv
  exact hx row hrow v hmem

/-- The spread of a column of numbers that are not large is finite. -/
theorem Scaling.isFinite_spread {k : Int} (hlow : 0 ≤ k) (hhigh : k ≤ 900) {values : List Float}
    (h : ∀ v ∈ values, Within k v) (hlength : values.length ≤ 2 ^ 60) {lower upper : Float}
    (hlower : lower.isFinite) (hupper : upper.isFinite) :
    (Scaling.columnStats lower upper values).spread.isFinite := by
  have h1 := columnQuantile_within hlow hhigh h hlength hlower
  have h2 := columnQuantile_within hlow hhigh h hlength hupper
  exact (within_sub h2 h1 (by omega) (by omega)).1

/-- A percentage of the standard range as a share. -/
theorem isFinite_percent {n : Nat} (hn : n ≤ 100) : (ofNat n / ofNat 100).isFinite := by
  have hnum : Within 7 (ofNat n) := within_ofNat (k := 7) (hn.trans (by decide)) (by decide)
  obtain ⟨hden, hden'⟩ := value_ofNat (n := 100) (by decide)
  exact (within_div hnum hden (by rw [hden']; norm_num) (by decide) (by decide)).1

/-! ## Models that cannot be reopened, and those that can -/

/-- What can be stored of a bundle whatever the spreads of its columns are. -/
structure Bundle.StorableBesideSpreads (b : Bundle) : Prop where
  provenance : b.provenance.Storable
  medians : ∀ c ∈ b.scaling.columns, c.median.isFinite
  forest : b.forest.Storable
  width : b.scaling.width = b.forest.width

theorem Bundle.StorableBesideSpreads.storable {b : Bundle} (h : b.StorableBesideSpreads)
    (hspread : ∀ c ∈ b.scaling.columns, c.spread.isFinite) : b.Storable :=
  ⟨h.provenance, fun c hc => ⟨h.medians c hc, hspread c hc⟩, h.forest, h.width⟩

/-- Such a bundle is read back as it was just when all of its spreads are finite, and refused
otherwise. Spreads that are known to be finite need not be looked at. -/
theorem Bundle.StorableBesideSpreads.ofJson_iff {b : Bundle} (h : b.StorableBesideSpreads)
    {n : Nat} (hdrop : ∀ c ∈ b.scaling.columns.drop n, c.spread.isFinite) :
    (ofJson b.toJson = .ok b ↔ ∀ c ∈ b.scaling.columns.take n, c.spread.isFinite) ∧
      (ofJson b.toJson = .error .malformed ↔
        ∃ c ∈ b.scaling.columns.take n, ¬ c.spread.isFinite) := by
  have hgood : (∀ c ∈ b.scaling.columns.take n, c.spread.isFinite) →
      ofJson b.toJson = .ok b := by
    intro htake
    apply ofJson_toJson
    apply h.storable
    intro c hc
    rw [← List.take_append_drop n b.scaling.columns, List.mem_append] at hc
    exact hc.elim (htake c) (hdrop c)
  have hbad : (∃ c ∈ b.scaling.columns.take n, ¬ c.spread.isFinite) →
      ofJson b.toJson = .error .malformed := by
    rintro ⟨c, hc, hspread⟩
    exact ofJson_toJson_of_spread (List.mem_of_mem_take hc) hspread
  refine ⟨⟨fun hread => ?_, hgood⟩, ⟨fun hread => ?_, hbad⟩⟩
  · intro c hc
    by_contra hspread
    rw [hbad ⟨c, hc, hspread⟩] at hread
    cases hread
  · by_contra hnone
    rw [hgood fun c hc => not_not.mp fun hspread => hnone ⟨c, hc, hspread⟩] at hread
    cases hread

/-- No finite coordinate of an attempt is larger than `2^800`. -/
def Attempt.NearOrigin (a : Attempt) : Prop :=
  (∀ x ∈ finite? a.latitude, Within 800 x) ∧ ∀ x ∈ finite? a.longitude, Within 800 x

/-- Whether the known coordinates of an attempt are degrees, from a turn back to a turn on. -/
def Attempt.inDegrees (a : Attempt) : Bool :=
  [a.latitude, a.longitude].all fun x => x.all fun x => -ofNat 360 ≤ x && x ≤ ofNat 360

theorem Attempt.nearOrigin_of_inDegrees {a : Attempt} (h : a.inDegrees) : a.NearOrigin := by
  have hcoordinate : ∀ y ∈ [a.latitude, a.longitude], ∀ x ∈ finite? y, Within 800 x := by
    intro y hy x hx
    obtain ⟨rfl, -⟩ := Option.mem_filter_iff.mp hx
    have hdegrees := List.all_eq_true.mp h _ hy
    rw [Option.all_some, Bool.and_eq_true, decide_eq_true_eq, decide_eq_true_eq] at hdegrees
    exact (within_of_le (k := 9) hdegrees.1 hdegrees.2 (by decide) (by decide)).mono (by decide)
  exact ⟨hcoordinate _ List.mem_cons_self,
    hcoordinate _ (List.mem_cons_of_mem _ List.mem_cons_self)⟩

namespace Settings

section Runs

variable [Elementary] {training : List Attempt}

theorem storable_bundleOf [Elementary.Lawful] {s : Settings} (occasion : Occasion)
    (hcheck : s.check = .ok ()) (htrees : s.trees < twoTo 64) (htraining : training ≠ [])
    (hlength : training.length ≤ 2 ^ 60) :
    (s.bundleOf occasion training).StorableBesideSpreads := by
  obtain ⟨htrees1, hcontamination⟩ := spec_of_check hcheck
  have hpos : 1 ≤ training.length := List.length_pos_iff.mpr htraining
  constructor
  case provenance =>
    refine ⟨?_, htrees, hcontamination.storable⟩
    rw [twoTo_64]
    exact hlength.trans_lt (by decide)
  case medians =>
    refine Scaling.isFinite_median_ofMatrix ?_ (isFinite_features hlength) _ _
    rwa [Features.height_ofAttempts]
  case forest =>
    have hmax : s.detector.trees = s.trees := by
      rw [trees_detector]
      omega
    refine Detector.grown_storable ?_ ?_ ?_ ?_ ?_ ?_ occasion.chance
    · rwa [hmax]
    · rwa [hmax]
    · rw [contamination_detector]
      exact hcontamination.held
    · rwa [height_scaledMatrix]
    · rwa [height_scaledMatrix]
    · rw [width_scaledMatrix]
      decide
  case width =>
    unfold bundleOf Scaling.width
    rw [length_scalingOf training training, width_forestOf]
    rfl

/-- The statistics of a run are those of the feature columns. -/
theorem columns_scalingOf : (scalingOf training).columns = (List.range featureNames.length).map
    fun j => Scaling.columnStats (ofNat 25 / ofNat 100) (ofNat 75 / ofNat 100)
      ((Features.ofAttempts training).matrix.column j) := rfl

theorem mem_column_features {j : Nat} {v : Float}
    (h : v ∈ (Features.ofAttempts training).matrix.column j) :
    ∃ a ∈ training, (a.features (.ofAttempts training))[j]? = some v := by
  obtain ⟨row, hrow, hv⟩ := List.mem_filterMap.mp h
  obtain ⟨a, ha, rfl⟩ := List.mem_map.mp hrow
  exact ⟨a, ha, hv⟩

theorem length_column_features (hlength : training.length ≤ 2 ^ 60) (j : Nat) :
    ((Features.ofAttempts training).matrix.column j).length ≤ 2 ^ 60 := by
  refine (Matrix.length_column_le _ j).trans ?_
  rwa [Features.height_ofAttempts]

/-- Only the spreads of the coordinates can be infinite. -/
theorem isFinite_spread_drop [Elementary.Lawful] (hlength : training.length ≤ 2 ^ 60) :
    ∀ c ∈ (scalingOf training).columns.drop 2, c.spread.isFinite := by
  have hindex : ∀ j ∈ (List.range featureNames.length).drop 2, 2 ≤ j := by decide
  intro c hc
  rw [columns_scalingOf, ← List.map_drop] at hc
  obtain ⟨j, hj, rfl⟩ := List.mem_map.mp hc
  refine Scaling.isFinite_spread (k := 128) (by decide) (by decide) ?_
    (length_column_features hlength j) (isFinite_percent (by decide)) (isFinite_percent (by decide))
  intro v hv
  obtain ⟨a, -, hget⟩ := mem_column_features hv
  have hsum : 2 + (j - 2) = j := by
    have := hindex j hj
    omega
  apply features_within hlength a v
  apply List.mem_of_getElem? (i := j - 2)
  rw [List.getElem?_drop, hsum, hget]

/-- The spreads of coordinates that are not large are finite. -/
theorem isFinite_spread_take (hlength : training.length ≤ 2 ^ 60)
    (hnear : ∀ a ∈ training, a.NearOrigin) :
    ∀ c ∈ (scalingOf training).columns.take 2, c.spread.isFinite := by
  have hindex : ∀ j ∈ (List.range featureNames.length).take 2, j = 0 ∨ j = 1 := by decide
  -- a stand-in is a median of coordinates that are not large
  have hmiddle : ∀ f : Attempt → Option Float, (∀ a ∈ training, ∀ x ∈ finite? (f a), Within 800 x) →
      Within 863 (middle (training.map f)) := by
    intro f hf
    refine middle_within (k := 800) (by decide) (by decide) ?_ (by rwa [List.length_map])
    intro x hx
    obtain ⟨y, hy, hyx⟩ := List.mem_filterMap.mp hx
    obtain ⟨a, ha, rfl⟩ := List.mem_map.mp hy
    exact hf a ha x hyx
  have hvalue : ∀ (x : Option Float) (b : Float), (∀ y ∈ finite? x, Within 800 y) →
      Within 863 b → Within 863 ((finite? x).getD b) := by
    intro x b hx hb
    cases h : finite? x with
    | none => exact hb
    | some y => exact (hx y h).mono (by decide)
  intro c hc
  rw [columns_scalingOf, ← List.map_take] at hc
  obtain ⟨j, hj, rfl⟩ := List.mem_map.mp hc
  refine Scaling.isFinite_spread (k := 863) (by decide) (by decide) ?_
    (length_column_features hlength j) (isFinite_percent (by decide)) (isFinite_percent (by decide))
  intro v hv
  obtain ⟨a, ha, hget⟩ := mem_column_features hv
  rcases hindex j hj with rfl | rfl
  · obtain rfl := Option.some.inj hget
    exact hvalue _ _ (hnear a ha).1 (hmiddle (·.latitude) fun b hb => (hnear b hb).1)
  · obtain rfl := Option.some.inj hget
    exact hvalue _ _ (hnear a ha).2 (hmiddle (·.longitude) fun b hb => (hnear b hb).2)

/-- A model is reopened just when the spreads of both coordinates are finite, and refused as
malformed when one is not. All else that a run stores can be read back; and attempts whose
coordinates are not larger than `2^800` give a model that is reopened. -/
theorem reopens_iff_spreads [Elementary.Lawful] {s : Settings} (occasion : Occasion)
    {trusted all : List Attempt} (hcheck : s.check = .ok ()) (hall : all ≠ [])
    (htrees : s.trees < twoTo 64) (hlength : (trainingList trusted all).length ≤ 2 ^ 60) :
    ∃ o, s.run occasion trusted all = .ok o ∧ o.bundle.StorableBesideSpreads ∧
      (Bundle.ofJson o.bundle.toJson = .ok o.bundle ↔
        ∀ c ∈ o.bundle.scaling.columns.take 2, c.spread.isFinite) ∧
      (Bundle.ofJson o.bundle.toJson = .error .malformed ↔
        ∃ c ∈ o.bundle.scaling.columns.take 2, ¬ c.spread.isFinite) ∧
      ((∀ a ∈ trainingList trusted all, a.NearOrigin) →
        Bundle.ofJson o.bundle.toJson = .ok o.bundle) := by
  have hstorable := storable_bundleOf occasion hcheck htrees (trainingList_ne_nil trusted hall)
    hlength
  obtain ⟨hok, herror⟩ := hstorable.ofJson_iff (isFinite_spread_drop hlength)
  refine ⟨_, run_eq occasion trusted hcheck hall, hstorable, hok, herror, fun hnear => ?_⟩
  exact hok.mpr (isFinite_spread_take hlength hnear)

end Runs

/-- An attempt at coordinates in degrees, so many seconds after 1970 began. -/
def loginAt (seconds : Int) (latitude longitude : Nat) : Attempt :=
  { Attempt.blank with
    latitude := some (ofNat latitude)
    longitude := some (ofNat longitude)
    time := (Time.Timestamp.ofUnix? seconds 0).getD .epoch }

/-- Four attempts in the course of a day, not far from one another, and one in the next night
from far away. -/
def fiveLogins : List Attempt :=
  [loginAt 30000 48 11, loginAt 34000 49 12, loginAt 38000 50 10, loginAt 52000 47 13,
    loginAt 90000 10 90]

/-- Settings with five trees that take a fifth of the attempts for anomalies. -/
def fewTrees : Settings :=
  { standard with trees := 5, contamination := .fraction (ofDecimal false 2 (-1)) }

theorem check_fewTrees : fewTrees.check = .ok () := by
  rw [check_eq_ok_iff]
  decide +kernel

theorem nearOrigin_fiveLogins : ∀ a ∈ fiveLogins, a.NearOrigin := by
  have hdegrees : fiveLogins.all Attempt.inDegrees := by decide +kernel
  exact fun a ha => Attempt.nearOrigin_of_inDegrees (List.all_eq_true.mp hdegrees a ha)

/-- The model of four trusted attempts is reopened. -/
theorem reopens_fiveLogins : ∃ o,
    @run Elementary.series fewTrees ⟨.epoch, 0⟩ (fiveLogins.take 4) fiveLogins = .ok o ∧
      Bundle.ofJson o.bundle.toJson = .ok o.bundle := by
  obtain ⟨o, hrun, -, -, -, hreopens⟩ := @reopens_iff_spreads Elementary.series
    Elementary.lawful_series fewTrees ⟨.epoch, 0⟩ (fiveLogins.take 4) fiveLogins check_fewTrees
    (List.cons_ne_nil _ _) (by decide) (by decide)
  exact ⟨o, hrun, hreopens fun a ha => nearOrigin_fiveLogins a (List.mem_of_mem_take ha)⟩

/-! ## Latitudes at both ends of the number range -/

/-- An attempt of which only the latitude may be known. -/
def attemptAt (latitude : Option Float) : Attempt := { Attempt.blank with latitude }

/-- Two attempts at either of two opposite latitudes. -/
def opposite (x : Float) : List Attempt :=
  [attemptAt (some (-x)), attemptAt (some (-x)), attemptAt (some x), attemptAt (some x)]

theorem column_opposite [Elementary] {x : Float} (hx : x.isFinite) :
    (Features.ofAttempts (opposite x)).matrix.column 0 = [-x, -x, x, x] := by
  have hknown : ∀ y b : Float, y.isFinite → (finite? (some y)).getD b = y := by
    intro y b hy
    unfold finite?
    rw [Option.filter_some, if_pos hy, Option.getD_some]
  have hneg := isFinite_neg hx
  simp only [Matrix.column, Features.ofAttempts, opposite, List.map_cons, List.map_nil]
  simp [Attempt.features, attemptAt, hknown, hx, hneg]

theorem ascending_opposite {x : Float} (h : place (-x) ≤ place x) :
    ascending [-x, -x, x, x] = [-x, -x, x, x] := by
  apply List.mergeSort_of_pairwise
  simp [Scalar.precedes, h]

/-- The model of finite coordinates that lie too far apart is written, but cannot be read. -/
theorem opposite_malformed : ∃ o, { standard with trees := 2 }.run ⟨.epoch, 0⟩
      (opposite (ofDecimal false 17 307)) (opposite (ofDecimal false 17 307)) = .ok o ∧
    Bundle.ofJson o.bundle.toJson = .error .malformed := by
  have hfinite : (ofDecimal false 17 307).isFinite := by decide +kernel
  have hplace : place (-ofDecimal false 17 307) ≤ place (ofDecimal false 17 307) := by
    decide +kernel
  have hspread : ¬ (Scaling.columnStats (ofNat 25 / ofNat 100) (ofNat 75 / ofNat 100)
      [-ofDecimal false 17 307, -ofDecimal false 17 307, ofDecimal false 17 307,
        ofDecimal false 17 307]).spread.isFinite := by
    unfold Scaling.columnStats
    rw [ascending_opposite hplace]
    decide +kernel
  have hcheck : { standard with trees := 2 }.check = .ok () := by
    rw [check_eq_ok_iff]
    decide +kernel
  have hne : opposite (ofDecimal false 17 307) ≠ [] := List.cons_ne_nil _ _
  refine ⟨_, run_eq _ _ hcheck hne, ?_⟩
  apply Bundle.ofJson_toJson_of_spread _ hspread
  rw [← column_opposite hfinite]
  exact List.mem_map_of_mem (List.mem_range.mpr (Nat.succ_pos 9))

end Settings

end LoginForest
