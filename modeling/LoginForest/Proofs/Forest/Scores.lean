/-
  Scores are shares. Average path lengths are finite and not below zero; so no path is below zero,
  their mean is not either, be it infinite, and its negative is an exponent whose power of two
  lies between zero and one (`scoreRow_within`). Quantiles of such scores are finite, so that a
  forest has a finite threshold (`grown_storable`).
-/
import LoginForest.Proofs.Forest.Growth
import LoginForest.Proofs.Stats.Quantile

namespace LoginForest

open Number

/-! ## Average path lengths -/

/-- Euler's constant in the formula. -/
def gamma : Float := ofDecimal false 5772156649015329 (-16)

theorem within_gamma : Within 0 gamma ∧ 1 / 2 ≤ value gamma := by
  have hfinite : gamma.isFinite := by decide +kernel
  have hlow : (half : Float) ≤ gamma := by decide +kernel
  have hhigh : gamma ≤ ofNat 1 := by decide +kernel
  rw [le_iff_value isFinite_half.1 hfinite, isFinite_half.2] at hlow
  rw [le_iff_value hfinite isFinite_one, value_one] at hhigh
  refine ⟨⟨hfinite, ?_⟩, hlow⟩
  rw [zpow_zero, abs_of_nonneg (by linarith)]
  exact hhigh

/-- Twice a sum with the constant is at least what the sum is the half of. -/
theorem le_logTerm {log : Float} (hlog : Within 65 log) {k : Nat} (hk : k < twoTo 53)
    (hlow : (k : ℚ) / 2 ≤ value log + value gamma) :
    Within 67 (ofNat 2 * (log + gamma)) ∧ (k : ℚ) ≤ value (ofNat 2 * (log + gamma)) := by
  have hgamma := within_gamma.1
  obtain ⟨htwo, htwo'⟩ := value_ofNat (n := 2) (by decide)
  have htwoWithin : Within 1 (ofNat 2) := within_ofNat (k := 1) (by decide) (by decide)
  have hsum : Within (65 + 1) (log + gamma) :=
    within_add hlog (hgamma.mono (by decide)) (by decide) (by decide)
  have hproduct : Within (1 + (65 + 1)) (ofNat 2 * (log + gamma)) :=
    within_mul htwoWithin hsum (by decide) (by decide)
  have hhalf : (k : ℚ) / 2 ≤ value (log + gamma) := by
    obtain ⟨p, hp, hpv⟩ := exists_value (e := -1) hk (by decide) (by decide) false
    rw [signedValue_false, zpow_neg_one, ← div_eq_mul_inv] at hpv
    rw [← hpv] at hlow ⊢
    exact (isRounding_add hlog.1 hgamma.1).le_value hsum.1 hp hlow
  refine ⟨hproduct, (isRounding_mul htwo hsum.1).natCast_le hproduct.1 hk ?_⟩
  rw [htwo']
  push_cast
  linarith

/-- Twice the rest over the count is at most what bounds it exactly. -/
theorem restTerm_le {rest count : Float} (hrest : Within 65 rest) (hcount : count.isFinite)
    (hcount1 : 1 ≤ value count) {k : Nat} (hk : k < twoTo 53)
    (hle : 2 * value rest ≤ k * value count) :
    Within 67 (ofNat 2 * rest / count) ∧ value (ofNat 2 * rest / count) ≤ k := by
  obtain ⟨htwo, htwo'⟩ := value_ofNat (n := 2) (by decide)
  have htwoWithin : Within 1 (ofNat 2) := within_ofNat (k := 1) (by decide) (by decide)
  have hproduct : Within (1 + 65) (ofNat 2 * rest) :=
    within_mul htwoWithin hrest (by decide) (by decide)
  have hquotient : Within 66 (ofNat 2 * rest / count) :=
    within_div hproduct hcount hcount1 (by decide) (by decide)
  have hvalue : value (ofNat 2 * rest) = 2 * value rest := by
    obtain ⟨p, hp, hpv⟩ := (hrest.mono (k := 970) (by decide)).exists_double
    have h := isRounding_mul htwo hrest.1
    rw [htwo', Nat.cast_ofNat, ← hpv] at h
    rw [(h.value_eq hp rfl).2, hpv]
  have hpos : 0 < value count := by linarith
  refine ⟨hquotient.mono (by decide),
    (isRounding_div hproduct.1 hcount hpos.ne').le_natCast hquotient.1 hk ?_⟩
  rwa [hvalue, div_le_iff₀ hpos]

/-! ## Parts of scores -/

theorem Tree.Storable.size_reach {t : Tree} (h : t.Storable) (row : List Float) :
    (t.reach row).size < twoTo 64 := by
  induction t with
  | leaf l => exact h.2
  | split feature threshold left right ihl ihr =>
    unfold reach
    split
    · exact ihl h.2.2.1
    · exact ihr h.2.2.2

theorem zero_le_foldl {paths : List Float} (h : ∀ p ∈ paths, ofNat 0 ≤ p) {sum : Float}
    (hsum : ofNat 0 ≤ sum) : ofNat 0 ≤ paths.foldl (· + ·) sum := by
  induction paths generalizing sum with
  | nil => exact hsum
  | cons p paths ih =>
    rw [List.foldl_cons]
    exact ih (fun q hq => h q (List.mem_cons_of_mem p hq))
      (zero_le_add hsum (h p List.mem_cons_self))

theorem pathUnit_spec [Elementary] {expected : Float} (h : expected.isFinite) :
    (pathUnit expected).isFinite ∧ 0 < value (pathUnit expected) := by
  unfold pathUnit
  split
  case isTrue hless =>
    refine ⟨h, ?_⟩
    rw [← value_zero]
    exact (less_iff_value isFinite_zero h).mp hless
  case isFalse =>
    refine ⟨isFinite_one, ?_⟩
    show 0 < value (ofNat 1)
    rw [value_one]
    norm_num

theorem isFinite_contaminationThreshold {scores : List Float} (h : ∀ s ∈ scores, Within 0 s)
    (hlength : scores.length ≤ 2 ^ 60) {c : Float} (hc : Within 0 c) :
    (contaminationThreshold scores c).isFinite := by
  have hone : Within 0 (ofNat 1) := within_ofNat (k := 0) (by decide) (by decide)
  have hrest : Within (0 + 1) (ofNat 1 - c) := within_sub hone hc (by decide) (by decide)
  unfold contaminationThreshold quantile
  rw [filter_isNumber fun s hs => (h s hs).1]
  cases hq : quantileSorted (ascending scores) (Scalar.count 1 - c) with
  | none => exact isFinite_half.1
  | some t =>
    refine (quantileSorted_within (k := 0) (by decide) (by decide)
      (fun s hs => h s (mem_ascending.mp hs)) ?_ hrest.1 hq).1
    rwa [length_ascending]

/-- A contamination that is automatic, or at most one in magnitude. -/
def Contamination.Bounded : Contamination → Prop
  | .auto => True
  | .fraction c => Within 0 c

theorem Contamination.Bounded.storable {c : Contamination} (h : c.Bounded) : c.Storable := by
  cases c with
  | auto => trivial
  | fraction c => exact h.1

theorem within_nearest_one {den : Nat} (hden : 0 < den) : Within 0 (nearest false 1 den) := by
  refine (isRounding_nearest Nat.one_pos hden).within (by decide) (by decide) ?_
  have hone : (1 : ℚ) ≤ den := by exact_mod_cast hden
  rw [Nat.cast_one, zpow_zero, abs_of_nonneg (by positivity)]
  exact (div_le_one (by linarith)).mpr hone

theorem Contamination.Bounded.held {c : Contamination} (h : c.Bounded) : c.held.Bounded := by
  cases c with
  | auto => trivial
  | fraction c =>
    simp only [Contamination.held, Bounded]
    split
    · exact within_nearest_one (twoTo_pos 52)
    · split
      · exact within_nearest_one (by decide)
      · exact h

section Lawful

variable [Elementary] [Elementary.Lawful]

/-- The logarithm of a count that is one less, with its bounds. -/
theorem log_rest_spec {n : Nat} (h2 : 2 ≤ n) (hn : n ≤ 2 ^ 64) :
    Within 65 (ofNat n - ofNat 1) ∧ Within 65 (Elementary.log (ofNat n - ofNat 1)) ∧
      0 ≤ value (Elementary.log (ofNat n - ofNat 1)) := by
  have hcount : Within 64 (ofNat n) := within_ofNat hn (by decide)
  have hcount2 := value_ofNat_le (k := 2) h2 (by decide) hcount.1
  rw [Nat.cast_ofNat] at hcount2
  have hrest : Within (64 + 1) (ofNat n - ofNat 1) :=
    within_sub hcount (within_ofNat (by decide) (by decide)) (by decide) (by decide)
  have hround := isRounding_sub hcount.1 isFinite_one
  rw [value_one] at hround
  have hrest1 := hround.natCast_le hrest.1 (k := 1) (by decide) (by push_cast; linarith)
  rw [Nat.cast_one] at hrest1
  obtain ⟨hlog, hlog0, hlogle⟩ := log_spec hrest.1 hrest1
  refine ⟨hrest, ⟨hlog, ?_⟩, hlog0⟩
  rw [abs_of_nonneg hlog0]
  exact hlogle.trans ((le_abs_self _).trans hrest.2)

/-- A whole number lies between twice what the rest is over the count and twice the sum of the
logarithm and the constant. Two points have an exact rest of one, and more have a logarithm of at
least one half. -/
theorem exists_between_terms {n : Nat} (h2 : 2 ≤ n) (hn : n ≤ 2 ^ 64) :
    ∃ k : Nat, k < twoTo 53 ∧
      (k : ℚ) / 2 ≤ value (Elementary.log (ofNat n - ofNat 1)) + value gamma ∧
      2 * value (ofNat n - ofNat 1) ≤ k * value (ofNat n) := by
  obtain ⟨hrest, hlog, hlog0⟩ := log_rest_spec h2 hn
  have hcount : (ofNat n).isFinite := (within_ofNat hn (by decide)).1
  have hgamma := within_gamma.2
  have hround := isRounding_sub hcount isFinite_one
  rw [value_one] at hround
  obtain rfl | h3 : 2 = n ∨ 3 ≤ n := by omega
  · refine ⟨1, by decide, by push_cast; linarith, ?_⟩
    have hexact := (value_ofNat (n := 2) (by decide)).2
    rw [Nat.cast_ofNat] at hexact
    have hle := hround.le_natCast hrest.1 (k := 1) (by decide) (by rw [hexact]; norm_num)
    rw [hexact]
    push_cast at *
    linarith
  · have hcount3 := value_ofNat_le (k := 3) h3 (by decide) hcount
    have hrest2 := hround.natCast_le hrest.1 (k := 2) (by decide) (by push_cast at *; linarith)
    have hle := hround.value_le hrest.1 hcount (by linarith)
    have htwo := value_ofNat (n := 2) (by decide)
    have hhalf := Elementary.Lawful.half_le_log (ofNat n - ofNat 1) hrest.1
      (by rwa [le_iff_value htwo.1 hrest.1, htwo.2])
    rw [le_iff_value isFinite_half.1 hlog.1, isFinite_half.2] at hhalf
    exact ⟨2, by decide, by push_cast; linarith, by push_cast; linarith⟩

/-- The average path is finite and not below zero. -/
theorem averagePathLength_spec {n : Nat} (hn : n ≤ 2 ^ 64) :
    (averagePathLength n : Float).isFinite ∧ 0 ≤ value (averagePathLength n) := by
  unfold averagePathLength
  split
  case isTrue => exact ⟨isFinite_zero, value_zero.ge⟩
  case isFalse h1 =>
    show (ofNat 2 * (Elementary.log (ofNat n - ofNat 1) + gamma) -
        ofNat 2 * (ofNat n - ofNat 1) / ofNat n).isFinite ∧
      0 ≤ value (ofNat 2 * (Elementary.log (ofNat n - ofNat 1) + gamma) -
        ofNat 2 * (ofNat n - ofNat 1) / ofNat n)
    have h2 : 2 ≤ n := by omega
    have hcount : (ofNat n).isFinite := (within_ofNat hn (by decide)).1
    have hcount2 := value_ofNat_le h2 (by decide) hcount
    rw [Nat.cast_ofNat] at hcount2
    obtain ⟨hrest, hlog, -⟩ := log_rest_spec h2 hn
    obtain ⟨k, hk, hlow, hhigh⟩ := exists_between_terms h2 hn
    obtain ⟨hleft, hleft'⟩ := le_logTerm hlog hk hlow
    obtain ⟨hright, hright'⟩ := restTerm_le hrest hcount (by linarith) hk hhigh
    have hresult := within_sub hleft hright (by decide) (by decide)
    refine ⟨hresult.1, ?_⟩
    have := (isRounding_sub hleft.1 hright.1).natCast_le hresult.1 (k := 0) (by decide)
      (by push_cast; linarith)
    rwa [Nat.cast_zero] at this

theorem Leaf.zero_le_pathLength {l : Leaf} (h : l.size ≤ 2 ^ 64) :
    ofNat 0 ≤ (l.pathLength : Float) := by
  obtain ⟨hfinite, hnonneg⟩ := averagePathLength_spec h
  refine zero_le_add (zero_le_ofNat l.depth) ?_
  exact zero_le_iff.mpr (.inr ⟨hfinite, hnonneg⟩)

/-- The score of paths that are not below zero lies between zero and one. -/
theorem isolationScore_within {expected : Float} (hexpected : expected.isFinite)
    {paths : List Float} (hpaths : ∀ p ∈ paths, ofNat 0 ≤ p) (hne : paths ≠ [])
    (hlength : paths.length ≤ 2 ^ 64) : Within 0 (isolationScore expected paths) := by
  have hcount : Within 64 (ofNat paths.length) := within_ofNat hlength (by decide)
  have hcount1 := value_ofNat_le (k := 1) (List.length_pos_iff.mpr hne) (by decide) hcount.1
  rw [Nat.cast_one] at hcount1
  have hmean : ofNat 0 ≤ paths.foldl (· + ·) (ofNat 0) / ofNat paths.length :=
    zero_le_div (zero_le_foldl hpaths (zero_le_ofNat 0)) hcount.1 (by linarith)
  obtain ⟨hunit, hunit0⟩ := pathUnit_spec hexpected
  obtain ⟨hlow, hhigh⟩ := Elementary.Lawful.twoToThe_bounds _ (neg_div_le_zero hmean hunit hunit0)
  have hfinite : (isolationScore expected paths).isFinite :=
    isFinite_of_le_of_le isFinite_zero isFinite_one hlow hhigh
  have hlow' := (le_iff_value isFinite_zero hfinite).mp hlow
  have hhigh' := (le_iff_value hfinite isFinite_one).mp hhigh
  rw [value_zero] at hlow'
  rw [value_one] at hhigh'
  refine ⟨hfinite, ?_⟩
  rw [zpow_zero, abs_of_nonneg hlow']
  exact hhigh'

/-- What a forest needs for its scores to be shares. -/
structure Forest.Scoring (f : Forest) : Prop where
  trees : ∀ t ∈ f.trees, t.Storable
  ne_nil : f.trees ≠ []
  length : f.trees.length ≤ 2 ^ 64
  expectedPathLength : f.expectedPathLength.isFinite

theorem Forest.scoreRow_within {f : Forest} (h : f.Scoring) (row : List Float) :
    Within 0 (f.scoreRow row) := by
  refine isolationScore_within h.expectedPathLength ?_ ?_ ?_
  · intro p hp
    obtain ⟨t, ht, rfl⟩ := List.mem_map.mp hp
    exact Leaf.zero_le_pathLength ((h.trees t ht).size_reach row).le
  · rw [ne_eq, List.map_eq_nil_iff]
    exact h.ne_nil
  · rw [List.length_map]
    exact h.length

/-! ## Thresholds -/

theorem Forest.isFinite_threshold_calibrate {f : Forest} (h : f.Scoring) {x : Matrix Float}
    (hheight : x.height ≤ 2 ^ 60) (hcontamination : f.contamination.Bounded)
    (hthreshold : f.threshold.isFinite) : (f.calibrate x).threshold.isFinite := by
  unfold calibrate
  cases hc : f.contamination with
  | auto => exact hthreshold
  | fraction c =>
    rw [hc] at hcontamination
    refine isFinite_contaminationThreshold ?_ ?_ hcontamination
    · intro s hs
      obtain ⟨row, -, rfl⟩ := List.mem_map.mp hs
      exact f.scoreRow_within h row
    · rw [List.length_map]
      exact hheight

omit [Elementary.Lawful] in
/-- Calibrating changes the threshold only. -/
theorem Forest.calibrate_eq (f : Forest) (x : Matrix Float) :
    f.calibrate x = { f with threshold := (f.calibrate x).threshold } := by
  obtain ⟨trees, width, sampleSize, expected, contamination, threshold⟩ := f
  cases contamination <;> rfl

/-- A forest that is grown on a matrix can be stored. -/
theorem Detector.grown_storable {d : Detector} (htrees : 1 ≤ d.trees) (htrees' : d.trees < twoTo 64)
    (hcontamination : d.contamination.Bounded) {x : Matrix Float} (hx : 1 ≤ x.height)
    (hx' : x.height ≤ 2 ^ 60) (hwidth : x.width < twoTo 64) (chance : UInt64) :
    (d.grown chance x).Storable := by
  have hsample : d.sampleSize.resolve x.height ≤ 2 ^ 60 := (d.sampleSize.resolve_le hx).trans hx'
  have hexpected := (averagePathLength_spec (hsample.trans (by decide))).1
  unfold grown
  generalize hf : Forest.grow x d.trees (d.sampleSize.resolve x.height) d.contamination
    (d.seed.getD chance) = f
  have htree : ∀ t ∈ f.trees, t.Storable ∧ t.levels ≤ Forest.treeLevels := by
    intro t ht
    rw [← hf] at ht
    obtain ⟨seed, -, rfl⟩ := List.mem_map.mp ht
    exact Tree.ofSeed_storable hwidth.le hsample seed
  have hlength : f.trees.length = d.trees := by
    rw [← hf, Forest.grow, List.length_map, Random.Generator.length_words]
  have hscoring : f.Scoring := by
    refine ⟨fun t ht => (htree t ht).1, ?_, ?_, hf ▸ hexpected⟩
    · rw [← List.length_pos_iff]
      omega
    · rw [hlength]
      exact htrees'.le
  have hthreshold := Forest.isFinite_threshold_calibrate hscoring hx'
    (hf ▸ hcontamination) (hf ▸ isFinite_half.1)
  rw [Forest.calibrate_eq]
  constructor
  case levels => exact fun t ht => (htree t ht).2
  case trees => exact fun t ht => (htree t ht).1
  case width => exact hf ▸ hwidth
  case sampleSize =>
    rw [← hf, twoTo_64]
    exact hsample.trans_lt (by decide)
  case expectedPathLength => exact hf ▸ hexpected
  case contamination => exact hf ▸ hcontamination.storable
  case threshold => exact hthreshold

end Lawful

end LoginForest
