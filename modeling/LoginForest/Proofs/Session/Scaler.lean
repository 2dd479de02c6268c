/-
  Sessions with a scaler, after those with a detector. The quantile range may change between
  fits, so the last fit that succeeded is known by its matrix and by the range it was made under,
  and the range of the next fit is carried along (`Scaler.answer_after`, `Scaler.obeys_answer`).
  For detectors and scalers together: `sessions_follow_last_fit`.
-/
import LoginForest.Proofs.Scoring.Run
import LoginForest.Proofs.Session.Detector

namespace LoginForest

namespace Scaler

/-- Two quantiles in percent. -/
abbrev Range := Float × Float

namespace Request

/-- The quantile range that a request sets, if it can be one. -/
def range? : Request → Option Range
  | .range lower upper => if isQuantileRange lower upper then some (lower, upper) else none
  | _ => none

/-- The matrix that a request fits to. -/
def training? : Request → Option (Matrix Float)
  | .fit x | .fitTransform x => some x
  | _ => none

/-- The matrix that a request asks about. -/
def queried? : Request → Option (Matrix Float)
  | .transform x | .invert x => some x
  | _ => none

/-- Whether a request can only be answered after a fit. -/
def needsFit : Request → Bool
  | .range .. | .fit _ | .fitTransform _ | .isFitted => false
  | .transform _ | .invert _ | .fitted | .release => true

/-- Whether a request takes the scaler away. -/
def isRelease : Request → Bool
  | .release => true
  | _ => false

theorem isRelease_of_training {r : Request} {x : Matrix Float} (h : r.training? = some x) :
    r.isRelease = false := by
  cases r with
  | fit x => rfl
  | fitTransform x => rfl
  | _ => cases h

theorem range?_of_training {r : Request} {x : Matrix Float} (h : r.training? = some x) :
    r.range? = none := by
  cases r with
  | fit x => rfl
  | fitTransform x => rfl
  | _ => cases h

end Request

/-- Why a scaler cannot be fitted to a matrix. -/
def fault? (x : Matrix Float) : Option Error :=
  if x.height = 0 then some (.empty .fitScaler) else none

/-- The quantile range after requests that begin with one. -/
def rangeAfter (range : Range) (requests : List Request) : Range :=
  requests.foldl (fun range r => r.range?.getD range) range

/-- The last of the requests that was a fit and succeeded: the range before it and its matrix. -/
def lastFit : Range → List Request → Option (Range × Matrix Float)
  | _, [] => none
  | range, r :: rs => (lastFit (r.range?.getD range) rs).or
      ((r.training?.filter fun x => (fault? x).isNone).map (range, ·))

theorem rangeAfter_concat (range : Range) (requests : List Request) (r : Request) :
    rangeAfter range (requests ++ [r]) = r.range?.getD (rangeAfter range requests) := by
  unfold rangeAfter
  rw [List.foldl_append]
  rfl

theorem lastFit_concat (range : Range) (requests : List Request) (r : Request) :
    lastFit range (requests ++ [r]) = ((r.training?.filter fun x => (fault? x).isNone).map
      (rangeAfter range requests, ·)).or (lastFit range requests) := by
  induction requests generalizing range with
  | nil => simp only [List.nil_append, lastFit, Option.none_or, Option.or_none]; rfl
  | cons q rs ih => simp only [List.cons_append, lastFit, ih, Option.or_assoc]; rfl

/-- The range a scaler fits under. -/
def range (s : Scaler) : Range := (s.lower, s.upper)

/-- The statistics of the last fit that succeeded. -/
def lastScaling (s : Scaler) (requests : List Request) : Option (Scaling Float) :=
  (lastFit s.range requests).map fun f => .ofMatrix f.1.1 f.1.2 f.2

/-- A scaler after requests, none of which took it away. -/
def after (s : Scaler) (requests : List Request) : Scaler :=
  ⟨(rangeAfter s.range requests).1, (rangeAfter s.range requests).2, s.lastScaling requests⟩

theorem fit_eq (s : Scaler) (x : Matrix Float) : s.fit x =
    (fault? x).elim (.ok { s with scaling := some (.ofMatrix s.lower s.upper x) }) .error := by
  unfold fit Scaling.fit fault?
  by_cases hx : x.height = 0
  · rw [if_pos hx, if_pos hx]
    rfl
  · rw [if_neg hx, if_neg hx]
    rfl

/-- What needs a fit is answered by the fitted statistics alone. -/
theorem answer_congr {s t : Scaler} (h : s.scaling = t.scaling) {r : Request} (hr : r.needsFit) :
    (s.answer r).1 = (t.answer r).1 := by
  have hfitted : s.fitted = t.fitted := by
    unfold fitted
    rw [h]
  cases r with
  | range lower upper => cases hr
  | fit x => cases hr
  | fitTransform x => cases hr
  | isFitted => cases hr
  | transform x => simp only [answer, transform, hfitted]
  | invert x => simp only [answer, hfitted]
  | fitted => simp only [answer, hfitted]
  | release => simp only [answer, release, h]

theorem answer_unfitted {s : Scaler} (h : s.scaling = none) {r : Request} (hr : r.needsFit) :
    ∃ what, (s.answer r).1 = .error (.unfitted what) := by
  have hfitted : s.fitted = .error (.unfitted .scaling) := by
    unfold fitted
    rw [h]
  cases r with
  | range lower upper => cases hr
  | fit x => cases hr
  | fitTransform x => cases hr
  | isFitted => cases hr
  | release =>
    refine ⟨.scaler, ?_⟩
    simp only [answer, release, h]
    rfl
  | _ =>
    refine ⟨.scaling, ?_⟩
    simp only [answer, transform, hfitted]
    rfl

theorem exists_map_matrix {m n : Nat} (result : m = n → Matrix Float) (e : Error) :
    ∃ a, ((if h : m = n then .ok (result h) else .error e : Except Error (Matrix Float)).map
      Reply.matrix) = if n = m then .ok a else .error e := by
  by_cases h : m = n
  · exact ⟨.matrix (result h), by rw [dif_pos h, if_pos h.symm]; rfl⟩
  · exact ⟨.done, by rw [dif_neg h, if_neg (Ne.symm h)]; rfl⟩

/-- A request about a matrix is answered just when its columns are those of the statistics. -/
theorem exists_answer_queried {s : Scaler} {f : Scaling Float} (h : s.fitted = .ok f)
    {r : Request} {y : Matrix Float} (hy : r.queried? = some y) :
    ∃ a, (s.answer r).1 =
      if y.width = f.width then .ok a else .error (.columns f.width y.width) := by
  cases r with
  | transform x =>
    obtain rfl := Option.some.inj hy
    simp only [answer, transform, h]
    exact exists_map_matrix (f.apply x) _
  | invert x =>
    obtain rfl := Option.some.inj hy
    simp only [answer, h]
    exact exists_map_matrix (x.zipColumns _ f.columns) _
  | _ => cases hy

/-- A fitted scaler refuses nothing but matrices of other columns. -/
theorem answer_eq_error_iff {s : Scaler} {f : Scaling Float} (h : s.scaling = some f)
    {r : Request} (hr : r.needsFit) (e : Error) : (s.answer r).1 = .error e ↔
      ∃ y, r.queried? = some y ∧ y.width ≠ f.width ∧ e = .columns f.width y.width := by
  have hfitted : s.fitted = .ok f := by
    unfold fitted
    rw [h]
  refine refused_iff_columns (fun hnone => ⟨.scaling f, ?_⟩)
    (fun y => exists_answer_queried hfitted) e
  cases r with
  | fitted => simp only [answer, hfitted]; rfl
  | release => simp only [answer, release, h]; rfl
  | transform x => cases hnone
  | invert x => cases hnone
  | _ => cases hr

/-- A fit succeeds or fails whatever was fitted before, and a failing one changes nothing. -/
theorem exists_answer_training (s : Scaler) {r : Request} {x : Matrix Float}
    (hx : r.training? = some x) : ∃ a, ∀ scaling, { s with scaling }.answer r = (fault? x).elim
      (.ok a, some { s with scaling := some (.ofMatrix s.lower s.upper x) })
      fun e => (.error e, some { s with scaling }) := by
  have hfit : ∀ scaling, { s with scaling }.fit x = (fault? x).elim
      (.ok { s with scaling := some (.ofMatrix s.lower s.upper x) }) .error := fun scaling =>
    fit_eq { s with scaling } x
  cases r with
  | fit y =>
    obtain rfl := Option.some.inj hx
    refine ⟨.scaling (.ofMatrix s.lower s.upper y), fun scaling => ?_⟩
    simp only [answer, hfit scaling]
    cases fault? y <;> rfl
  | fitTransform y =>
    obtain rfl := Option.some.inj hx
    have hwidth : (Scaling.ofMatrix s.lower s.upper y).columns.length = y.width :=
      Scaling.length_ofMatrix ..
    refine ⟨.matrix ((Scaling.ofMatrix s.lower s.upper y).apply y hwidth), fun scaling => ?_⟩
    have htransform : { s with scaling := some (.ofMatrix s.lower s.upper y) }.transform y =
        .ok ((Scaling.ofMatrix s.lower s.upper y).apply y hwidth) := dif_pos hwidth
    simp only [answer, hfit scaling]
    cases fault? y with
    | none => simp only [Option.elim_none, htransform]; rfl
    | some e => rfl
  | _ => cases hx

theorem answer_of_range {s : Scaler} {r : Request} {range : Range} (h : r.range? = some range) :
    (s.answer r).1 = .ok .done := by
  cases r with
  | range lower upper =>
    have hvalid : isQuantileRange lower upper = true := by
      by_contra hne
      rw [Request.range?, if_neg hne] at h
      cases h
    simp only [answer, withRange, if_pos hvalid]
  | _ => cases h

/-- Other requests may change the range, or take the scaler away. -/
theorem answer_kept (s : Scaler) {r : Request} (hr : r.training? = none) :
    (s.answer r).2 = if r.isRelease then none
      else some ⟨(r.range?.getD s.range).1, (r.range?.getD s.range).2, s.scaling⟩ := by
  cases r with
  | fit x => cases hr
  | fitTransform x => cases hr
  | range lower upper =>
    simp only [answer, withRange, Request.range?]
    cases isQuantileRange lower upper <;> rfl
  | _ => rfl

theorem after_nil {s : Scaler} (h : s.scaling = none) : s.after [] = s := by
  show (⟨s.lower, s.upper, none⟩ : Scaler) = s
  rw [← h]

theorem after_concat_kept (s : Scaler) (requests : List Request) {r : Request}
    (hr : r.training? = none) : s.after (requests ++ [r]) =
      ⟨(r.range?.getD (rangeAfter s.range requests)).1,
        (r.range?.getD (rangeAfter s.range requests)).2, s.lastScaling requests⟩ := by
  unfold after lastScaling
  rw [lastFit_concat, rangeAfter_concat, hr]
  rfl

theorem after_concat_training (s : Scaler) (requests : List Request) {r : Request}
    {x : Matrix Float} (hr : r.training? = some x) : s.after (requests ++ [r]) =
      (fault? x).elim { s.after requests with
        scaling := some (.ofMatrix (s.after requests).lower (s.after requests).upper x) }
        fun _ => s.after requests := by
  unfold after lastScaling
  rw [lastFit_concat, rangeAfter_concat, hr, Request.range?_of_training hr]
  cases hx : fault? x <;> simp [Option.filter, hx]

/-- One request after others. -/
theorem answer_after (s : Scaler) (requests : List Request) (r : Request) :
    ((s.after requests).answer r).2 =
      if r.isRelease then none else some (s.after (requests ++ [r])) := by
  cases hx : r.training? with
  | none =>
    rw [after_concat_kept s requests hx]
    exact answer_kept (s.after requests) hx
  | some x =>
    obtain ⟨a, ha⟩ := exists_answer_training (s.after requests) hx
    rw [after_concat_training s requests hx, Request.isRelease_of_training hx]
    refine (congrArg Prod.snd (ha (s.after requests).scaling)).trans ?_
    cases fault? x <;> rfl

/-- A session goes on with what the last fit that succeeded has left. -/
theorem session_answer {s : Scaler} (hs : s.scaling = none) {requests : List Request}
    (h : ∀ r ∈ requests, r.isRelease = false) :
    (session answer s requests).2 = some (s.after requests) := by
  have hafter := session_after (answer_after s) h
  rwa [after_nil hs] at hafter

theorem followsFit_answer (s : Scaler) (requests : List Request) (r : Request) :
    FollowsFit ((lastFit s.range requests).map (·.2)) r.training? r.queried? r.needsFit fault?
      ((s.after requests).answer r).1 := by
  refine .of_last (fun hneeds hlast => ?_) (fun hneeds x hlast e => ?_) fun x hx e => ?_
  · have hscaling : (s.after requests).scaling = none :=
      congrArg (Option.map _) (Option.map_eq_none_iff.mp hlast)
    exact answer_unfitted hscaling hneeds
  · obtain ⟨l, hl, rfl⟩ := Option.map_eq_some_iff.mp hlast
    have hscaling : (s.after requests).scaling = some (.ofMatrix l.1.1 l.1.2 l.2) :=
      congrArg (Option.map _) hl
    have hwidth : (Scaling.ofMatrix l.1.1 l.1.2 l.2).width = l.2.width := Scaling.length_ofMatrix ..
    have herror := answer_eq_error_iff hscaling hneeds e
    rwa [hwidth] at herror
  · obtain ⟨a, ha⟩ := exists_answer_training (s.after requests) hx
    have hreply : ((s.after requests).answer r).1 = (fault? x).elim (.ok a) .error := by
      refine (congrArg Prod.fst (ha (s.after requests).scaling)).trans ?_
      cases fault? x <;> rfl
    rw [hreply]
    cases fault? x <;> simp

/-- How a request after others is answered, and what is left of the scaler. Whether and how a
request is answered that needs a fit depends on the last statistics alone; a fit depends on the
range; and a failing request leaves the range and the statistics as they were. -/
structure Obeys (s : Scaler) (before : List Request) (r : Request) (reply : Except Error Reply)
    (left : Option Scaler) : Prop where
  follows : FollowsFit ((lastFit s.range before).map (·.2)) r.training? r.queried? r.needsFit
    fault? reply
  determined : r.needsFit → ∀ t : Scaler,
    t.scaling = s.lastScaling before → reply = (t.answer r).1
  fresh : ∀ x, r.training? = some x → ∀ t : Scaler,
    t.range = rangeAfter s.range before → reply = (t.answer r).1
  told : r = .isFitted → reply = .ok (.bool (lastFit s.range before).isSome)
  leaves : left = if r.isRelease then none else
    some ⟨(rangeAfter s.range (before ++ [r])).1, (rangeAfter s.range (before ++ [r])).2,
      s.lastScaling (before ++ [r])⟩
  unchanged : ∀ e, reply = .error e → r.isRelease = false →
    left = some ⟨(rangeAfter s.range before).1, (rangeAfter s.range before).2,
      s.lastScaling before⟩

theorem obeys_answer (s : Scaler) (before : List Request) (r : Request) :
    s.Obeys before r ((s.after before).answer r).1 ((s.after before).answer r).2 := by
  constructor
  case follows => exact followsFit_answer s before r
  case determined =>
    intro hneeds t ht
    exact answer_congr ht.symm hneeds
  case fresh =>
    intro x hx t ht
    obtain ⟨lower, upper, scaling⟩ := t
    obtain rfl : lower = (s.after before).lower := congrArg Prod.fst ht
    obtain rfl : upper = (s.after before).upper := congrArg Prod.snd ht
    obtain ⟨a, ha⟩ := exists_answer_training (s.after before) hx
    refine (congrArg Prod.fst (ha (s.after before).scaling)).trans ?_
    refine Eq.trans ?_ (congrArg Prod.fst (ha scaling)).symm
    cases fault? x <;> rfl
  case told =>
    rintro rfl
    simp [after, answer, isFitted, lastScaling]
  case leaves => exact answer_after s before r
  case unchanged =>
    intro e he hkept
    cases hx : r.training? with
    | none =>
      have hrange : r.range? = none := by
        rcases hr : r.range? with _ | range
        · rfl
        · rw [answer_of_range hr] at he
          cases he
      rw [answer_after, hkept, after_concat_kept s before hx, hrange]
      rfl
    | some x =>
      have hfault := ((followsFit_answer s before r).training x hx e).mp he
      rw [answer_after, hkept, after_concat_training s before hx, hfault]
      rfl

end Scaler

/-! ## Both -/

/-- Over every session with a new detector and with a new scaler, each answer follows from the
last fit that succeeded before it, and so does what it leaves. -/
theorem sessions_follow_last_fit [Elementary] {d : Detector} (hd : d.model = none)
    {calls : List Detector.Call} (hcalls : ∀ c ∈ calls, c.2.isRelease = false)
    (c : Detector.Call) {s : Scaler} (hs : s.scaling = none) {requests : List Scaler.Request}
    (hrequests : ∀ r ∈ requests, r.isRelease = false) (r : Scaler.Request) :
    (∃ reply left, session Detector.call d (calls ++ [c]) =
        ((session Detector.call d calls).1 ++ [reply], left) ∧ d.Obeys calls c reply left) ∧
      ∃ reply left, session Scaler.answer s (requests ++ [r]) =
        ((session Scaler.answer s requests).1 ++ [reply], left) ∧ s.Obeys requests r reply left :=
  ⟨⟨_, _, session_concat (Detector.session_call hd hcalls) c, d.obeys_call calls c⟩,
    _, _, session_concat (Scaler.session_answer hs hrequests) r, s.obeys_answer requests r⟩

/-- One row, and no row, of as many columns as asked for. -/
def oneRow (width : Nat) : Matrix Float := ⟨width, [List.replicate width (Number.ofNat 1)], by simp⟩

def noRow (width : Nat) : Matrix Float := ⟨width, [], by simp⟩

/-- A question too early, two fits of different columns, and a fit that fails. -/
def refits : List Detector.Call :=
  [(0, .score (oneRow 2)), (0, .fit (oneRow 2)), (0, .fitPredict (oneRow 3)), (0, .fit (noRow 4))]

def rescalings : List Scaler.Request :=
  [.transform (oneRow 2), .fit (oneRow 2), .range (Number.ofNat 10) (Number.ofNat 90),
    .fitTransform (oneRow 3), .fit (noRow 4)]

theorem sessions_follow_last_fit_refits :
    (∃ reply left, session Detector.call .standard (refits ++ [(0, .score (oneRow 2))]) =
        ((session Detector.call .standard refits).1 ++ [reply], left) ∧
      Detector.standard.Obeys refits (0, .score (oneRow 2)) reply left) ∧
    ∃ reply left, session Scaler.answer .standard (rescalings ++ [.release]) =
        ((session Scaler.answer .standard rescalings).1 ++ [reply], left) ∧
      Scaler.standard.Obeys rescalings .release reply left :=
  @sessions_follow_last_fit _ .standard rfl refits (by decide) (0, .score (oneRow 2)) .standard rfl
    rescalings (by decide) .release

end LoginForest
