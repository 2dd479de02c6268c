/-
  Scaling with nothing rounded. Sorting and interpolating commute with increasing affine maps
  (`quantile_map`), and each column is scaled by one; so the columns that a scaling is fitted to
  have their median at zero and their two quantiles at distance one, or zero if they were so
  before. A column without a spread is divided by one, and so every scaling can be undone
  (`Scaling.fit_transform_invert`).
-/
import LoginForest.Proofs.Number.Extended
import LoginForest.Proofs.Stats.Exact
import LoginForest.Scaler

namespace LoginForest

open Number

/-! ## Affine maps -/

/-- An increasing affine map. -/
def affine (m k : ℚ) (v : ℚ) : ℚ := (v - m) / k

section Affine

variable {m k : ℚ}

theorem affine_mono (hk : 0 < k) : Monotone (affine m k) :=
  fun _ _ hab => div_le_div_of_nonneg_right (sub_le_sub_right hab m) hk.le

theorem ascending_map {f : ℚ → ℚ} (hf : Monotone f) (values : List ℚ) :
    ascending (values.map f) = (ascending values).map f := by
  have hperm : (ascending (values.map f)).Perm ((ascending values).map f) :=
    (perm_ascending _).trans ((perm_ascending values).symm.map f)
  refine hperm.eq_of_pairwise' (pairwise_ascending _) ?_
  rw [List.pairwise_map]
  exact (pairwise_ascending values).imp fun hab => hf hab

theorem interpolate_affine (m k a b t : ℚ) :
    interpolate (affine m k a) (affine m k b) t = affine m k (interpolate a b t) := by
  show affine m k a + (affine m k b - affine m k a) * t = affine m k (a + (b - a) * t)
  unfold affine
  ring

/-- Quantiles of scaled values are the scaled quantiles. -/
theorem quantileSorted_map (m k : ℚ) (l : List ℚ) (q : ℚ) :
    quantileSorted (l.map (affine m k)) q = (quantileSorted l q).map (affine m k) := by
  unfold quantileSorted
  dsimp only
  rw [List.length_map, List.getElem?_map, List.getElem?_map]
  cases l[Scalar.floor (clampUnit q * Scalar.count (l.length - 1))]? with
  | none => rfl
  | some a =>
    cases l[Scalar.ceiling (clampUnit q * Scalar.count (l.length - 1))]? with
    | none => rfl
    | some b =>
      rw [Option.map_some, Option.map_some]
      dsimp only
      rw [Option.map_some, apply_ite (affine m k), interpolate_affine]

theorem quantile_map (hk : 0 < k) (values : List ℚ) (q : ℚ) :
    quantile (values.map (affine m k)) q = (quantile values q).map (affine m k) := by
  rw [quantile_rat, quantile_rat, ascending_map (affine_mono hk), quantileSorted_map]

end Affine

/-! ## Columns -/

namespace Matrix

variable {α β γ : Type}

theorem length_column {x : Matrix α} {j : ℕ} (h : j < x.width) :
    (x.column j).length = x.height := by
  rw [column, List.length_filterMap_eq_countP, height, List.countP_eq_length]
  intro row hrow
  rw [List.getElem?_eq_getElem (by rwa [x.width_eq row hrow])]
  rfl

/-- Each column is combined with its own parameter. -/
theorem column_zipColumns (f : α → β → γ) (x : Matrix α) {params : List β}
    (h : params.length = x.width) {j : ℕ} {p : β} (hp : params[j]? = some p) :
    (x.zipColumns f params h).column j = (x.column j).map (f · p) := by
  unfold column zipColumns
  dsimp only
  rw [List.filterMap_map, List.map_filterMap]
  refine List.filterMap_congr fun row _ => ?_
  rw [Function.comp_apply, List.getElem?_zipWith, hp]
  cases row[j]? <;> rfl

theorem zipWith_zipWith {f g : α → β → α} {row : List α} {params : List β}
    (h : params.length = row.length) (hundo : ∀ p ∈ params, ∀ v, g (f v p) p = v) :
    List.zipWith g (List.zipWith f row params) params = row := by
  induction row generalizing params with
  | nil => rfl
  | cons v row ih =>
    cases params with
    | nil => cases h
    | cons p params =>
      rw [List.zipWith_cons_cons, List.zipWith_cons_cons, hundo p List.mem_cons_self,
        ih (Nat.succ.inj h) fun p' hp' => hundo p' (List.mem_cons_of_mem p hp')]

/-- Combining twice gives a matrix back where the second function undoes the first one. -/
theorem zipColumns_zipColumns {f g : α → β → α} {x : Matrix α} {params : List β}
    (h : params.length = x.width) (hundo : ∀ p ∈ params, ∀ v, g (f v p) p = v) :
    (x.zipColumns f params h).zipColumns g params h = x := by
  have hrows : ((x.rows.map fun r => List.zipWith f r params).map fun r =>
      List.zipWith g r params) = x.rows := by
    rw [List.map_map]
    refine (List.map_congr_left fun row hrow => ?_).trans (List.map_id _)
    exact zipWith_zipWith (h.trans (x.width_eq row hrow).symm) hundo
  cases x
  unfold zipColumns
  dsimp only at hrows ⊢
  congr 1

end Matrix

/-! ## Ranges of quantiles -/

theorem isQuantileRange_rat {lower upper : ℚ} :
    isQuantileRange lower upper ↔ 0 ≤ lower ∧ lower < upper ∧ upper ≤ 100 := by
  have h : isQuantileRange lower upper = (decide (((0 : ℕ) : ℚ) ≤ lower) &&
    decide (lower < upper) && !decide (((100 : ℕ) : ℚ) < upper)) := rfl
  rw [h]
  simp [and_assoc]

/-- The ends of a range, as shares. -/
theorem shares_of_isQuantileRange {lower upper : ℚ} (h : isQuantileRange lower upper) :
    0 ≤ lower / 100 ∧ lower / 100 ≤ upper / 100 ∧ upper / 100 ≤ 1 := by
  obtain ⟨h0, hlt, h100⟩ := isQuantileRange_rat.mp h
  exact ⟨by positivity, by linarith, by linarith⟩

/-- What a scaler accepts for its range is a range with nothing rounded too. -/
theorem Scaler.isQuantileRange_of_withRange {s s' : Scaler} {lower upper : Float}
    (h : s.withRange lower upper = .ok s') : isQuantileRange (value s'.lower) (value s'.upper) := by
  unfold withRange at h
  split at h
  case isFalse => cases h
  case isTrue hrange =>
    obtain rfl := Except.ok.inj h
    have hbounds : (decide (ofNat 0 ≤ lower) && decide (lower < upper) &&
      !decide (ofNat 100 < upper)) = true := hrange
    simp only [Bool.and_eq_true, decide_eq_true_eq, Bool.not_eq_true',
      decide_eq_false_iff_not] at hbounds
    obtain ⟨⟨h0, hlt⟩, h100⟩ := hbounds
    obtain ⟨hlower, hupper⟩ := not_isNaN_of_lt hlt
    obtain ⟨hhundred, hvalue⟩ := value_ofNat (n := 100) (by decide)
    have hlow := extended_zero_le h0
    have hmiddle := (lt_iff_extended hlower hupper).mp hlt
    have hhigh := (not_lt_iff_extended (not_isNaN_of_isFinite hhundred) hupper).mp h100
    obtain ⟨hfinite, hlower0, -⟩ := isFinite_of_extended_between isFinite_zero hhundred hlow
      (hmiddle.le.trans hhigh)
    obtain ⟨hfinite', -, hupper100⟩ := isFinite_of_extended_between isFinite_zero hhundred
      (hlow.trans hmiddle.le) hhigh
    rw [value_zero] at hlower0
    rw [hvalue, Nat.cast_ofNat] at hupper100
    exact isQuantileRange_rat.mpr ⟨hlower0, (lt_iff_value hfinite hfinite').mp hlt, hupper100⟩

/-! ## Scalings -/

namespace ColumnStats

theorem scale_rat (c : ColumnStats ℚ) : c.scale = if c.spread = 0 then 1 else c.spread := by
  have hscale : c.scale = if (decide (c.spread = ((0 : ℕ) : ℚ)) || !true) = true
    then ((1 : ℕ) : ℚ) else c.spread := rfl
  simpa using hscale

theorem scale_ne_zero (c : ColumnStats ℚ) : c.scale ≠ 0 := by
  rw [scale_rat]
  split
  · exact one_ne_zero
  · assumption

theorem scale_pos {c : ColumnStats ℚ} (h : 0 ≤ c.spread) : 0 < c.scale := by
  rw [scale_rat]
  split
  case isTrue => exact one_pos
  case isFalse hne => exact h.lt_of_ne' hne

/-- What the statistics of a column are, and what becomes of the column that they scale. -/
structure Normalizes (lower upper : ℚ) (c : ColumnStats ℚ) (scaled : List ℚ) : Prop where
  spread_nonneg : 0 ≤ c.spread
  median : LoginForest.median scaled = some 0
  quantiles : ∃ low high, quantile scaled (lower / 100) = some low ∧
    quantile scaled (upper / 100) = some high ∧ high - low = if c.spread = 0 then 0 else 1

end ColumnStats

namespace Scaling

section Fit

variable {lower upper : ℚ}

/-- The statistics of a column are its median and the distance of two quantiles. -/
theorem columnStats_rat (hrange : isQuantileRange lower upper) {values : List ℚ}
    (hv : values ≠ []) : ∃ low high, quantile values (lower / 100) = some low ∧
      quantile values (upper / 100) = some high ∧ low ≤ high ∧ ∃ middle,
      median values = some middle ∧
      columnStats (lower / 100) (upper / 100) values = ⟨middle, high - low⟩ := by
  obtain ⟨h0, hle, h1⟩ := shares_of_isQuantileRange hrange
  obtain ⟨low, hlow, -⟩ := exists_quantile hv h0 (hle.trans h1)
  obtain ⟨high, hhigh, -⟩ := exists_quantile hv (h0.trans hle) h1
  obtain ⟨middle, hmiddle⟩ : ∃ middle, median values = some middle := by
    have hhalf : (half : ℚ) = 1 / 2 := by
      show ((1 : ℕ) : ℚ) / ((2 : ℕ) : ℚ) = 1 / 2
      norm_num
    obtain ⟨middle, hmiddle, -⟩ := exists_quantile hv (q := half) (by rw [hhalf]; norm_num)
      (by rw [hhalf]; norm_num)
    exact ⟨middle, hmiddle⟩
  refine ⟨low, high, hlow, hhigh, quantile_mono hv h0 hle h1 hlow hhigh, middle, hmiddle, ?_⟩
  rw [median, quantile_rat] at hmiddle
  rw [quantile_rat] at hlow hhigh
  unfold columnStats
  dsimp only
  rw [hmiddle, hlow, hhigh]
  rfl

/-- A column that is scaled by its own statistics. -/
theorem normalizes (hrange : isQuantileRange lower upper) {values : List ℚ} (hv : values ≠ []) :
    let c := columnStats (lower / 100) (upper / 100) values
    c.Normalizes lower upper (values.map fun v => (v - c.median) / c.scale) := by
  obtain ⟨low, high, hlow, hhigh, hle, middle, hmiddle, hstats⟩ := columnStats_rat hrange hv
  rw [hstats]
  intro c
  have hspread : c.spread = high - low := rfl
  have hnonneg : 0 ≤ c.spread := sub_nonneg.mpr hle
  have hscaled := quantile_map (m := middle) (ColumnStats.scale_pos hnonneg) values
  constructor
  case spread_nonneg => exact hnonneg
  case median =>
    refine (hscaled half).trans ?_
    rw [← median, hmiddle, Option.map_some, affine, sub_self, zero_div]
  case quantiles =>
    refine ⟨affine middle c.scale low, affine middle c.scale high, ?_, ?_, ?_⟩
    · exact (hscaled _).trans (by rw [hlow, Option.map_some])
    · exact (hscaled _).trans (by rw [hhigh, Option.map_some])
    · rw [affine, affine, ← sub_div, sub_sub_sub_cancel_right, ← hspread, c.scale_rat]
      split
      case isTrue hzero => rw [hzero, zero_div]
      case isFalse hne => exact div_self hne

end Fit

/-- The statistics at a place are those of the column there. -/
theorem columns_ofMatrix (lower upper : ℚ) {x : Matrix ℚ} {j : ℕ} (h : j < x.width) :
    (ofMatrix lower upper x).columns[j]? =
      some (columnStats (lower / 100) (upper / 100) (x.column j)) := by
  unfold ofMatrix
  dsimp only
  rw [List.getElem?_map, List.getElem?_range h, Option.map_some]
  rfl

theorem exists_fit_transform {lower upper : ℚ} (hrange : isQuantileRange lower upper) {x : Matrix ℚ}
    (hx : 0 < x.height) : ∃ s y, fit lower upper x = .ok s ∧ s.transform x = .ok y ∧
      s.width = x.width ∧ y.width = x.width ∧ y.height = x.height ∧ ∀ j < x.width,
        ∃ c, s.columns[j]? = some c ∧ c.Normalizes lower upper (y.column j) := by
  have hwidth : (ofMatrix lower upper x).columns.length = x.width := by
    rw [ofMatrix, List.length_map, List.length_range]
  refine ⟨ofMatrix lower upper x, (ofMatrix lower upper x).apply x hwidth, if_neg hx.ne',
    dif_pos hwidth, hwidth, rfl, Matrix.height_zipColumns .., fun j hj => ?_⟩
  have hcolumn := columns_ofMatrix lower upper hj
  refine ⟨_, hcolumn, ?_⟩
  rw [apply, Matrix.column_zipColumns _ _ _ hcolumn]
  refine normalizes hrange fun hnil => ?_
  have hlength := Matrix.length_column hj
  rw [hnil, List.length_nil] at hlength
  omega

/-- With as many columns, transforming and inverting undo each other. -/
theorem invert_transform {s : Scaling ℚ} {y : Matrix ℚ} (h : s.columns.length = y.width) :
    (∃ z, s.transform y = .ok z ∧ s.invert z = .ok y) ∧
      ∃ z, s.invert y = .ok z ∧ s.transform z = .ok y := by
  constructor
  · refine ⟨_, dif_pos h, (dif_pos h).trans (congrArg _ ?_)⟩
    refine Matrix.zipColumns_zipColumns h fun c _ v => ?_
    rw [div_mul_cancel₀ _ c.scale_ne_zero, sub_add_cancel]
  · refine ⟨_, dif_pos h, (dif_pos h).trans (congrArg _ ?_)⟩
    refine Matrix.zipColumns_zipColumns h fun c _ v => ?_
    rw [add_sub_cancel_right, mul_div_cancel_right₀ _ c.scale_ne_zero]

/-- Columns that a scaling is fitted to have, once transformed, their median at zero and their two
quantiles at distance one, or zero where they had no spread, which is never negative. Transforming
and inverting undo each other on every matrix of the scaling's width, and both fail on any other
one. -/
theorem fit_transform_invert :
    (∀ (s s' : Scaler) (lower upper : Float), s.withRange lower upper = .ok s' →
      isQuantileRange (value s'.lower) (value s'.upper)) ∧
    (∀ (lower upper : ℚ) (x : Matrix ℚ), isQuantileRange lower upper → 0 < x.height →
      ∃ s y, fit lower upper x = .ok s ∧ s.transform x = .ok y ∧ s.width = x.width ∧
        y.width = x.width ∧ y.height = x.height ∧ ∀ j < x.width,
          ∃ c, s.columns[j]? = some c ∧ c.Normalizes lower upper (y.column j)) ∧
    ∀ (s : Scaling ℚ) (y : Matrix ℚ),
      (s.width = y.width → (∃ z, s.transform y = .ok z ∧ s.invert z = .ok y) ∧
        ∃ z, s.invert y = .ok z ∧ s.transform z = .ok y) ∧
      (s.width ≠ y.width → s.transform y = .error (.columns s.width y.width) ∧
        s.invert y = .error (.columns s.width y.width)) :=
  ⟨fun _ _ _ _ h => Scaler.isQuantileRange_of_withRange h,
    fun _ _ _ hrange hx => exists_fit_transform hrange hx,
    fun _ _ => ⟨fun h => invert_transform h, fun h => ⟨dif_neg h, dif_neg h⟩⟩⟩

/-- A column with a spread and one without, over the middle half. -/
theorem fit_transform_invert_twoColumns :
    let x : Matrix ℚ := ⟨2, [[1, 5], [2, 5], [3, 5], [4, 5]], by decide⟩
    ∃ s y, fit 25 75 x = .ok s ∧ s.transform x = .ok y ∧ s.invert y = .ok x ∧
      ∀ j < 2, ∃ c, s.columns[j]? = some c ∧ c.Normalizes 25 75 (y.column j) := by
  intro x
  obtain ⟨-, hfit, hundo⟩ := fit_transform_invert
  obtain ⟨s, y, hs, hy, hwidth, -, -, hcolumns⟩ := hfit 25 75 x
    (isQuantileRange_rat.mpr (by norm_num)) (by decide)
  obtain ⟨z, hz, hinvert⟩ := ((hundo s x).1 hwidth).1
  obtain rfl := Except.ok.inj (hy.symm.trans hz)
  exact ⟨s, y, hs, hy, hinvert, hcolumns⟩

end Scaling

end LoginForest
