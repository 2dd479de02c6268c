/-
  Quantiles of binary64 numbers. The position of a quantile is rounded, and so is each step of the
  interpolation, but a position stays within the list and an interpolated value between its ends.
  So the quantile of a share below one exists and lies between the neighbours of its rounded
  position (`exists_quantile_float`); and as every step keeps the order, a greater share has no
  lesser quantile (`value_quantile_le`). Of up to `2^51` values, rounding moves the position by less
  than one place (`abs_roundedRank_sub_lt`).
-/
import LoginForest.Proofs.Number.Monotone
import LoginForest.Proofs.Stats.Exact
import LoginForest.Proofs.Stats.Permuted
import LoginForest.Proofs.Stats.Quantile

namespace LoginForest

open Number

/-- A number that is a share of the whole, and not all of it. -/
structure IsShare (q : Float) : Prop where
  isFinite : q.isFinite
  nonneg : 0 ≤ value q
  lt_one : value q < 1

theorem IsShare.le {q : Float} (h : IsShare q) : value q ≤ 1 - 2 ^ (-53 : Int) :=
  value_le_of_lt_one h.isFinite h.nonneg h.lt_one

/-! ## Interpolation -/

section Interpolation

variable {a b f f' : Float}

/-- What each step from `a` towards `b` gives. -/
structure Steps (a b f : Float) : Prop where
  eq : interpolate a b f = a + (b - a) * f
  distance : (b - a).isFinite
  distance_nonneg : 0 ≤ value (b - a)
  way : ((b - a) * f).isFinite
  isFinite : (interpolate a b f).isFinite
  ge : value a ≤ value (interpolate a b f)
  le : value (interpolate a b f) ≤ value b

/-- Between two numbers that are not large, interpolation does not leave them. -/
theorem Steps.of_share (ha : Within 900 a) (hb : Within 900 b) (hab : value a ≤ value b)
    (hf : IsShare f) : Steps a b f := by
  have hdistance : Within (900 + 1) (b - a) := within_sub hb ha (by decide) (by decide)
  have hround := isRounding_sub hb.1 ha.1
  have hexact0 : 0 ≤ value b - value a := sub_nonneg.mpr hab
  have hdistance0 := hround.le_value hdistance.1 isFinite_zero (by rwa [value_zero])
  rw [value_zero] at hdistance0
  have hgrid : ∃ k : ℤ, value b - value a = k * 2 ^ (-1074 : Int) := by
    obtain ⟨j, hj⟩ := exists_value_eq a
    obtain ⟨k, hk⟩ := exists_value_eq b
    exact ⟨k - j, by rw [hj, hk, Int.cast_sub, sub_mul]⟩
  -- however the distance is rounded, the way along it does not go beyond it
  have hproduct := isNearest_mul hdistance.1 hf.isFinite
  rw [mul_comm] at hproduct
  obtain ⟨hway, hway0, hwayle⟩ :=
    hproduct.le_of_shrunk hround hdistance.1 hgrid hexact0 hf.nonneg hf.le
  obtain ⟨hsum, hge, hle⟩ := (isRounding_add ha.1 hway).between ha.1 hb.1
    (le_add_of_nonneg_right hway0) (le_sub_iff_add_le'.mp hwayle)
  have heq : interpolate a b f = a + (b - a) * f := if_pos hsum
  exact ⟨heq, hdistance.1, hdistance0, hway, heq ▸ hsum, heq ▸ hge, heq ▸ hle⟩

/-- A longer way leads no less far. -/
theorem Steps.value_le (h : Steps a b f) (h' : Steps a b f') (ha : a.isFinite) (hf : IsShare f)
    (hf' : IsShare f') (hle : value f ≤ value f') :
    value (interpolate a b f) ≤ value (interpolate a b f') := by
  have hway := value_mul_le h.distance h.distance hf.isFinite hf'.isFinite h.way h'.way
    h.distance_nonneg hf.nonneg le_rfl hle
  have hsum := h.isFinite
  have hsum' := h'.isFinite
  rw [h.eq] at hsum ⊢
  rw [h'.eq] at hsum' ⊢
  exact value_add_le ha h.way h'.way hsum hsum' hway

end Interpolation

/-! ## Positions -/

section Position

variable {q q' : Float} {n : Nat}

theorem clampUnit_of_share (hq : IsShare q) : clampUnit q = q := by
  rw [clampUnit_eq hq.isFinite, if_neg hq.nonneg.not_gt, if_neg hq.lt_one.le.not_gt]

/-- The position of a share does not lie beyond the last place, also where the number of places
is rounded up. -/
theorem position_le (hq : IsShare q) (hn : (ofNat n).isFinite) :
    (position q n).isFinite ∧ 0 ≤ value (position q n) ∧ value (position q n) ≤ n := by
  unfold position
  rw [clampUnit_of_share hq]
  exact (isNearest_mul hq.isFinite hn).le_of_shrunk (isRounding_ofNat n) hn (exists_natCast_eq n)
    (Nat.cast_nonneg n) hq.nonneg hq.le

theorem value_position_le (hq : IsShare q) (hq' : IsShare q') (hn : (ofNat n).isFinite)
    (hle : value q ≤ value q') : value (position q n) ≤ value (position q' n) := by
  have hfinite := (position_le hq hn).1
  have hfinite' := (position_le hq' hn).1
  unfold position at *
  rw [clampUnit_of_share hq] at *
  rw [clampUnit_of_share hq'] at *
  have hn0 := (isRounding_ofNat n).le_value hn isFinite_zero (by rw [value_zero]; positivity)
  rw [value_zero] at hn0
  exact value_mul_le hq.isFinite hq'.isFinite hn hn hfinite hfinite' hq.nonneg hn0 hle le_rfl

/-- How far a position that is not whole lies beyond its whole part is not rounded. -/
theorem fraction_spec {p : Float} (hp : p.isFinite) (h0 : 0 ≤ value p)
    (hne : ⌊value p⌋₊ ≠ ⌈value p⌉₊) :
    IsShare (fraction p) ∧ value (fraction p) = value p - ⌊value p⌋₊ ∧ 0 < value (fraction p) := by
  have hwhole : ∀ k : ℕ, value p ≠ k := by
    intro k hk
    rw [hk, Nat.floor_natCast, Nat.ceil_natCast] at hne
    exact hne rfl
  have hlow := Nat.floor_le h0
  have hhigh := Nat.lt_floor_add_one (value p)
  obtain ⟨n, m, e, hparts⟩ := isFinite_iff.mp hp
  have hc := (encode_parts hparts).1
  have hvalue : value p = m * 2 ^ e := by
    rw [← abs_signedValue n m e, ← value_of_parts hparts, abs_of_nonneg h0]
  obtain ⟨j, rfl⟩ : ∃ j : ℕ, e = -j := by
    refine ⟨(-e).toNat, ?_⟩
    by_contra hpos
    obtain ⟨k, rfl⟩ : ∃ k : ℕ, e = k := ⟨e.toNat, by omega⟩
    refine hwhole (m * 2 ^ k) ?_
    rw [hvalue, zpow_natCast]
    push_cast
    rfl
  have hfloor : ⌊value p⌋₊ = m / 2 ^ j := by
    rw [hvalue, zpow_neg, zpow_natCast, ← div_eq_mul_inv, ← Nat.cast_ofNat, ← Nat.cast_pow,
      Nat.floor_div_eq_div]
  have hrest : value p - ⌊value p⌋₊ = (m % 2 ^ j : ℕ) * 2 ^ (-j : Int) := by
    have hsplit : (m : ℚ) = 2 ^ j * (m / 2 ^ j : ℕ) + (m % 2 ^ j : ℕ) := by
      exact_mod_cast (Nat.div_add_mod m (2 ^ j)).symm
    rw [hfloor, hvalue, zpow_neg, zpow_natCast]
    field_simp
    linarith
  obtain ⟨hcount, hcountv⟩ := value_ofNat (n := ⌊value p⌋₊)
    (hfloor ▸ (Nat.div_le_self _ _).trans_lt hc.lt)
  have hround := isRounding_sub hp hcount
  rw [hcountv] at hround
  obtain ⟨hfinite, hfraction⟩ :=
    hround.exact ((Nat.mod_le _ _).trans_lt hc.lt) hc.ge (by omega) hrest
  have hpos : 0 < value p - ⌊value p⌋₊ := sub_pos.mpr (hlow.lt_of_ne' (hwhole _))
  rw [fraction, wholePart_eq_floor hp h0, hfraction]
  exact ⟨⟨hfinite, hfraction ▸ hpos.le, hfraction ▸ sub_lt_iff_lt_add'.mpr hhigh⟩, rfl, hpos⟩

end Position

/-! ## Ascending numbers -/

/-- The bits of what is not negative are in order. -/
theorem magnitude_le_of_encode {m m' : Nat} {e e' : Int} (h : Canonical m e) (h' : Canonical m' e')
    (hle : encode false m e ≤ encode false m' e') : (m : ℚ) * 2 ^ e ≤ m' * 2 ^ e' := by
  by_contra hlt
  have hless := (magnitude_lt_iff h' h).mp (not_le.mp hlt)
  obtain ⟨hm, hlow, hnormal⟩ := h
  obtain ⟨hm', hlow', -⟩ := h'
  simp only [encode, twoTo_52, twoTo_53, Bool.false_eq_true, if_false] at hle hm hm' hnormal
  omega

theorem place_of_parts {x : Float} {n : Bool} {m : Nat} {e : Int} (h : parts x = .finite n m e) :
    place x = if n then twoTo 63 - 1 - encode false m e else twoTo 63 + encode false m e := by
  obtain ⟨hc, he, hbits⟩ := encode_parts h
  have hlt := encode_lt hc he true
  simp only [place, ← hbits, encode, twoTo_52, twoTo_63, twoTo_64] at hlt ⊢
  cases n <;> simp only [if_true, Bool.false_eq_true, if_false] at hlt ⊢ <;> split <;> omega

/-- Numbers are placed as what they denote. -/
theorem value_le_of_place {x y : Float} (hx : x.isFinite) (hy : y.isFinite)
    (h : place x ≤ place y) : value x ≤ value y := by
  obtain ⟨n, m, e, hp⟩ := isFinite_iff.mp hx
  obtain ⟨n', m', e', hp'⟩ := isFinite_iff.mp hy
  obtain ⟨hc, he, -⟩ := encode_parts hp
  obtain ⟨hc', he', -⟩ := encode_parts hp'
  have hlt := encode_lt hc he true
  have hlt' := encode_lt hc' he' true
  have hmagnitude := magnitude_le_of_encode hc hc'
  have hmagnitude' := magnitude_le_of_encode hc' hc
  have hnonneg := mul_nonneg (Nat.cast_nonneg (α := ℚ) m) (two_zpow_pos e).le
  have hnonneg' := mul_nonneg (Nat.cast_nonneg (α := ℚ) m') (two_zpow_pos e').le
  rw [place_of_parts hp, place_of_parts hp'] at h
  rw [value_of_parts hp, value_of_parts hp']
  simp only [encode, twoTo_52, twoTo_63, twoTo_64, if_true, Bool.false_eq_true, if_false] at *
  cases n <;> cases n' <;>
    simp only [signedValue_false, signedValue_true, if_true, Bool.false_eq_true, if_false] at h ⊢
  · exact hmagnitude (by omega)
  · omega
  · linarith
  · exact neg_le_neg (hmagnitude' (by omega))

theorem pairwise_ascending_value {values : List Float} (h : ∀ x ∈ values, x.isFinite) :
    ((ascending values).map value).Pairwise (· ≤ ·) := by
  have hplaces : (ascending values).Pairwise fun x y => place x ≤ place y := by
    exact (List.pairwise_mergeSort precedes_trans precedes_total values).imp of_decide_eq_true
  rw [List.pairwise_map]
  refine hplaces.imp_of_mem fun hx hy => ?_
  exact value_le_of_place (h _ (mem_ascending.mp hx)) (h _ (mem_ascending.mp hy))

/-! ## Quantiles -/

/-- Values that a quantile is taken of: not none, not large, and of a number that is finite. -/
structure Rankable (values : List Float) : Prop where
  ne_nil : values ≠ []
  within : ∀ x ∈ values, Within 900 x
  count : (ofNat (values.length - 1)).isFinite

/-- Where the `q`-quantile of `n` values is looked for. -/
def roundedRank (q : Float) (n : ℕ) : ℚ := value (position q (n - 1))

section Quantiles

variable {values l : List Float} {q q' t t' : Float}

/-- A quantile is the value at its position, or is interpolated between the neighbours. -/
theorem quantileSorted_float (hne : l ≠ []) (hcount : (ofNat (l.length - 1)).isFinite)
    (hq : IsShare q) : ∃ a b,
      l[⌊roundedRank q l.length⌋₊]? = some a ∧ l[⌈roundedRank q l.length⌉₊]? = some b ∧
      quantileSorted l q = some
        (if ⌊roundedRank q l.length⌋₊ = ⌈roundedRank q l.length⌉₊ then a
        else interpolate a b (fraction (position q (l.length - 1)))) := by
  obtain ⟨hp, hp0, hple⟩ := position_le hq hcount
  have hlength := List.length_pos_iff.mpr hne
  have hceil : ⌈roundedRank q l.length⌉₊ ≤ l.length - 1 := Nat.ceil_le.mpr hple
  have hfloor := Nat.floor_le_ceil (roundedRank q l.length)
  obtain ⟨a, ha⟩ : ∃ a, l[⌊roundedRank q l.length⌋₊]? = some a :=
    ⟨_, List.getElem?_eq_getElem (by omega)⟩
  obtain ⟨b, hb⟩ : ∃ b, l[⌈roundedRank q l.length⌉₊]? = some b :=
    ⟨_, List.getElem?_eq_getElem (by omega)⟩
  refine ⟨a, b, ha, hb, ?_⟩
  have hposition : clampUnit q * Scalar.count (l.length - 1) = position q (l.length - 1) := rfl
  unfold quantileSorted roundedRank at *
  dsimp only
  rw [hposition]
  generalize position q (l.length - 1) = p at *
  rw [show Scalar.floor p = ⌊value p⌋₊ from wholePart_eq_floor hp hp0,
    show Scalar.ceiling p = ⌈value p⌉₊ from wholeAbove_eq_ceil hp hp0, ha, hb]
  refine congrArg some ?_
  by_cases hwhole : ⌊value p⌋₊ = ⌈value p⌉₊
  · rw [if_pos hwhole, if_pos (by rw [beq_iff_eq.mpr hwhole, Bool.true_or])]
  · obtain ⟨hshare, -, hpos⟩ := fraction_spec hp hp0 hwhole
    have hfraction : p - Scalar.count ⌊value p⌋₊ = fraction p := by
      rw [fraction, wholePart_eq_floor hp hp0]
      rfl
    have hsame : ¬ Scalar.same (fraction p) (Scalar.count 0) := by
      refine (beq_iff_value hshare.isFinite isFinite_zero).not.mpr ?_
      rw [value_zero]
      exact hpos.ne'
    rw [if_neg hwhole, hfraction, if_neg]
    rw [Bool.or_eq_true, beq_iff_eq, not_or]
    exact ⟨hwhole, hsame⟩

theorem between_quantileSorted_float (hl : Rankable l) (hsorted : (l.map value).Pairwise (· ≤ ·))
    (hq : IsShare q) : ∃ t, quantileSorted l q = some t ∧ t.isFinite ∧
      Between (l.map value) (roundedRank q l.length) (value t) := by
  obtain ⟨a, b, ha, hb, hquantile⟩ := quantileSorted_float hl.ne_nil hl.count hq
  obtain ⟨hp, hp0, -⟩ := position_le hq hl.count
  have ha' : (l.map value)[⌊roundedRank q l.length⌋₊]? = some (value a) := by
    rw [List.getElem?_map, ha, Option.map_some]
  have hb' : (l.map value)[⌈roundedRank q l.length⌉₊]? = some (value b) := by
    rw [List.getElem?_map, hb, Option.map_some]
  have hab := le_of_getElem? hsorted (Nat.floor_le_ceil _) ha' hb'
  have hwithin := hl.within a (List.mem_of_getElem? ha)
  have hwithin' := hl.within b (List.mem_of_getElem? hb)
  by_cases hwhole : ⌊roundedRank q l.length⌋₊ = ⌈roundedRank q l.length⌉₊
  · rw [if_pos hwhole] at hquantile
    exact ⟨a, hquantile, hwithin.1, value a, value b, ha', hb', le_rfl, hab⟩
  · rw [if_neg hwhole] at hquantile
    have hsteps := Steps.of_share hwithin hwithin' hab (fraction_spec hp hp0 hwhole).1
    exact ⟨_, hquantile, hsteps.isFinite, value a, value b, ha', hb', hsteps.ge, hsteps.le⟩

/-- A greater share has no lesser quantile. -/
theorem value_quantileSorted_le (hl : Rankable l) (hsorted : (l.map value).Pairwise (· ≤ ·))
    (hq : IsShare q) (hq' : IsShare q') (hle : value q ≤ value q')
    (ht : quantileSorted l q = some t) (ht' : quantileSorted l q' = some t') :
    value t ≤ value t' := by
  obtain ⟨s, hs, -, hbetween⟩ := between_quantileSorted_float hl hsorted hq
  obtain ⟨s', hs', -, hbetween'⟩ := between_quantileSorted_float hl hsorted hq'
  obtain rfl := Option.some.inj (ht.symm.trans hs)
  obtain rfl := Option.some.inj (ht'.symm.trans hs')
  have hrank : roundedRank q l.length ≤ roundedRank q' l.length :=
    value_position_le hq hq' hl.count hle
  refine hbetween.le_of_le hsorted hbetween' hrank fun hfloor hceil => ?_
  -- between the same neighbours a longer way is gone from the lower one
  obtain ⟨a, b, ha, hb, hquantile⟩ := quantileSorted_float hl.ne_nil hl.count hq
  obtain ⟨a', b', ha', hb', hquantile'⟩ := quantileSorted_float hl.ne_nil hl.count hq'
  rw [← hfloor] at ha'
  rw [← hceil] at hb'
  rw [← hfloor, ← hceil] at hquantile'
  obtain rfl := Option.some.inj (ha.symm.trans ha')
  obtain rfl := Option.some.inj (hb.symm.trans hb')
  obtain rfl := Option.some.inj (ht.symm.trans hquantile)
  obtain rfl := Option.some.inj (ht'.symm.trans hquantile')
  obtain ⟨hp, hp0, -⟩ := position_le hq hl.count
  obtain ⟨hp', hp0', -⟩ := position_le hq' hl.count
  by_cases hwhole : ⌊roundedRank q l.length⌋₊ = ⌈roundedRank q l.length⌉₊
  · rw [if_pos hwhole, if_pos hwhole]
  · rw [if_neg hwhole, if_neg hwhole]
    obtain ⟨hf, hvalue, -⟩ := fraction_spec hp hp0 hwhole
    obtain ⟨hf', hvalue', -⟩ := fraction_spec hp' hp0' (hfloor ▸ hceil ▸ hwhole)
    have hwithin := hl.within a (List.mem_of_getElem? ha)
    have hwithin' := hl.within b (List.mem_of_getElem? hb)
    have hab : value a ≤ value b := by
      refine le_of_getElem? hsorted (Nat.floor_le_ceil (roundedRank q l.length)) ?_ ?_
      · rw [List.getElem?_map, ha, Option.map_some]
      · rw [List.getElem?_map, hb, Option.map_some]
    have hsteps := Steps.of_share hwithin hwithin' hab hf
    have hsteps' := Steps.of_share hwithin hwithin' hab hf'
    refine hsteps.value_le hsteps' hwithin.1 hf hf' ?_
    rw [hvalue, hvalue']
    unfold roundedRank at hfloor hrank
    rw [← hfloor]
    linarith

theorem Rankable.ascending (h : Rankable values) : Rankable (ascending values) := by
  refine ⟨ascending_ne_nil h.ne_nil, fun x hx => h.within x (mem_ascending.mp hx), ?_⟩
  rw [length_ascending]
  exact h.count

theorem Rankable.quantile_eq (h : Rankable values) (q : Float) :
    quantile values q = quantileSorted (LoginForest.ascending values) q := by
  rw [quantile, filter_isNumber fun x hx => (h.within x hx).1]

theorem Rankable.pairwise (h : Rankable values) :
    ((LoginForest.ascending values).map value).Pairwise (· ≤ ·) :=
  pairwise_ascending_value fun x hx => (h.within x hx).1

/-- The quantile of a share exists and lies between the neighbours of its rounded position. -/
theorem exists_quantile_float (h : Rankable values) (hq : IsShare q) :
    ∃ t, quantile values q = some t ∧ t.isFinite ∧
      Between ((ascending values).map value) (roundedRank q values.length) (value t) := by
  rw [h.quantile_eq, ← length_ascending values]
  exact between_quantileSorted_float h.ascending h.pairwise hq

theorem value_quantile_le (h : Rankable values) (hq : IsShare q) (hq' : IsShare q')
    (hle : value q ≤ value q') (ht : quantile values q = some t)
    (ht' : quantile values q' = some t') : value t ≤ value t' := by
  rw [h.quantile_eq] at ht ht'
  exact value_quantileSorted_le h.ascending h.pairwise hq hq' hle ht ht'

theorem countP_map_value (h : Rankable values) (ht : t.isFinite) :
    values.countP (t < ·) = ((ascending values).map value).countP (value t < ·) := by
  have hperm := perm_ascending values
  rw [(hperm.map value).countP_eq, List.countP_map]
  refine List.countP_congr fun s hs => ?_
  rw [decide_eq_true_eq, Function.comp_apply, decide_eq_true_eq]
  exact lt_iff_value ht (h.within s hs).1

/-- No more values lie above a quantile than there are places behind its rounded position. -/
theorem countP_quantile_float_le (h : Rankable values) (hq : IsShare q)
    (ht : quantile values q = some t) :
    values.countP (t < ·) ≤ values.length - (⌊roundedRank q values.length⌋₊ + 1) := by
  obtain ⟨t', ht', hfinite, hbetween⟩ := exists_quantile_float h hq
  obtain rfl := Option.some.inj (ht.symm.trans ht')
  have hcount := hbetween.countP_le h.pairwise
  rwa [← countP_map_value h hfinite, List.length_map, length_ascending] at hcount

/-- Of values that differ, all those behind the next place lie above it. -/
theorem le_countP_quantile_float (h : Rankable values) (hdistinct : (values.map value).Nodup)
    (hq : IsShare q) (ht : quantile values q = some t) :
    values.length - (⌈roundedRank q values.length⌉₊ + 1) ≤ values.countP (t < ·) := by
  obtain ⟨t', ht', hfinite, hbetween⟩ := exists_quantile_float h hq
  obtain rfl := Option.some.inj (ht.symm.trans ht')
  have hperm := perm_ascending values
  have hcount := hbetween.le_countP <|
    h.pairwise.imp₂ (fun _ _ hle hne => lt_of_le_of_ne hle hne)
      ((hperm.map value).nodup_iff.mpr hdistinct)
  rwa [← countP_map_value h hfinite, List.length_map, length_ascending] at hcount

end Quantiles

/-! ## Rounded positions -/

/-- Of up to `2^51` values the position is rounded by less than one place. -/
theorem abs_roundedRank_sub_lt {q : Float} {r : ℚ} (hq : IsShare q)
    (hr : |value q - r| ≤ 2 ^ (-53 : Int)) {n : ℕ} (hn : n ≤ 2 ^ 51) :
    |roundedRank q n - rank r n| < 1 := by
  have hle : n - 1 ≤ 2 ^ 51 := (Nat.sub_le n 1).trans hn
  obtain ⟨hcount, hvalue⟩ := value_ofNat (n := n - 1) (hle.trans_lt (by decide))
  have hposition := (position_le hq hcount).1
  have hnearest := isNearest_mul hq.isFinite hcount
  have hlast : (2 : ℚ) ^ (-53 : Int) * 2 ^ (51 : Int) = 1 / 4 := by norm_num
  have hplaces : (2 : ℚ) ^ (51 - 53 : Int) = 1 / 4 := by norm_num
  have hn0 : (0 : ℚ) ≤ (n - 1 : ℕ) := Nat.cast_nonneg _
  have hn51 : ((n - 1 : ℕ) : ℚ) ≤ 2 ^ (51 : Int) := by
    rw [show (51 : Int) = (51 : ℕ) from rfl, zpow_natCast]
    exact_mod_cast hle
  unfold roundedRank rank
  unfold position at hposition ⊢
  rw [clampUnit_of_share hq] at hposition ⊢
  rw [hvalue] at hnearest
  have hsize : |value q * (n - 1 : ℕ)| ≤ 2 ^ (51 : Int) := by
    rw [abs_of_nonneg (mul_nonneg hq.nonneg hn0)]
    exact (mul_le_of_le_one_left hn0 hq.lt_one.le).trans hn51
  have hproduct := hnearest.abs_sub_le hposition (by decide) (by decide) hsize
  have hshare : |value q * (n - 1 : ℕ) - r * (n - 1 : ℕ)| ≤ 2 ^ (-53 : Int) * 2 ^ (51 : Int) := by
    rw [← sub_mul, abs_mul, abs_of_nonneg hn0]
    exact mul_le_mul hr hn51 hn0 (two_zpow_pos _).le
  have htriangle := abs_sub_le (value (q * ofNat (n - 1))) (value q * (n - 1 : ℕ))
    (r * (n - 1 : ℕ))
  rw [hplaces] at hproduct
  rw [hlast] at hshare
  linarith

/-- Of up to `2^51` values the quantile of what `c` leaves has the share `c` above it, but for one
value. -/
theorem countP_quantile_float_near {values : List Float} (h : Rankable values) {q t : Float}
    {c : ℚ} (h0 : 0 ≤ c) (h1 : c ≤ 1) (hq : IsShare q)
    (hr : |value q - (1 - c)| ≤ 2 ^ (-53 : Int)) (hn : values.length ≤ 2 ^ 51)
    (ht : quantile values q = some t) :
    values.countP (t < ·) ≤ ⌈rank c values.length⌉₊ + 1 ∧
      ((values.map value).Nodup → ⌊rank c values.length⌋₊ ≤ values.countP (t < ·) + 1) := by
  have hlength := List.length_pos_iff.mpr h.ne_nil
  have hnear := abs_lt.mp (abs_roundedRank_sub_lt hq hr hn)
  have hrank0 : 0 ≤ roundedRank q values.length := (position_le hq h.count).2.1
  have hexact0 : 0 ≤ rank (1 - c) values.length := rank_nonneg (sub_nonneg.mpr h1)
  constructor
  · have hcount := countP_quantile_float_le h hq ht
    have hfloor : ⌊rank (1 - c) values.length⌋₊ ≤ ⌊roundedRank q values.length⌋₊ + 1 := by
      rw [← Nat.floor_add_one hrank0]
      exact Nat.floor_le_floor (by linarith)
    have := sub_floor_rank h0 h1 hlength
    omega
  · intro hdistinct
    have hcount := le_countP_quantile_float h hdistinct hq ht
    have hceil : ⌈roundedRank q values.length⌉₊ ≤ ⌈rank (1 - c) values.length⌉₊ + 1 := by
      rw [← Nat.ceil_add_one hexact0]
      exact Nat.ceil_le_ceil (by linarith)
    have := sub_ceil_rank h0 h1 hlength
    omega

end LoginForest
