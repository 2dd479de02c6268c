/-
  Sessions with a detector. Whatever is asked before, only the last fit that succeeded counts: it
  alone decides what is answered to a request that needs a fit, without one such a request is
  refused for this reason and no other, and requests that fail change nothing. One call is
  treated first (`Detector.call_after`, `Detector.obeys_call`), whole sessions follow by induction
  on the calls (`session_after`).
-/
import LoginForest.Proofs.Forest.Threshold

namespace LoginForest

/-! ## Sessions -/

/-- The answers to requests made one after the other, up to the one that takes the object away,
and what the object is then. -/
def session {σ ρ α : Type} (answer : σ → ρ → α × Option σ) : σ → List ρ → List α × Option σ
  | s, [] => ([], some s)
  | s, r :: rs =>
    (answer s r).2.elim ([(answer s r).1], none) fun s' =>
      ((answer s r).1 :: (session answer s' rs).1, (session answer s' rs).2)

/-- One more request is answered by what the object has become. -/
theorem session_concat {σ ρ α : Type} {answer : σ → ρ → α × Option σ} {s s' : σ} {rs : List ρ}
    (h : (session answer s rs).2 = some s') (r : ρ) : session answer s (rs ++ [r]) =
      ((session answer s rs).1 ++ [(answer s' r).1], (answer s' r).2) := by
  induction rs generalizing s with
  | nil =>
    obtain rfl : s = s' := Option.some.inj h
    simp only [session, List.nil_append]
    cases hnext : (answer s r).2 <;> rfl
  | cons q rs ih =>
    cases hnext : (answer s q).2 with
    | none =>
      simp only [session, hnext, Option.elim_none] at h
      cases h
    | some s₁ =>
      simp only [session, hnext, Option.elim_some] at h
      simp only [List.cons_append, session, hnext, Option.elim_some, ih h]

/-- What one request does to the object, a session does. -/
theorem session_after {σ ρ α : Type} {answer : σ → ρ → α × Option σ} {after : List ρ → σ}
    {isRelease : ρ → Bool} (hstep : ∀ rs r, (answer (after rs) r).2 =
      if isRelease r then none else some (after (rs ++ [r]))) {rs : List ρ}
    (h : ∀ r ∈ rs, isRelease r = false) : (session answer (after []) rs).2 = some (after rs) := by
  induction rs using List.reverseRecOn with
  | nil => rfl
  | append_singleton rs r ih =>
    have hbefore := ih fun q hq => h q (List.mem_append_left _ hq)
    rw [session_concat hbefore, hstep, h r (by simp)]
    rfl

/-- How a reply follows from the matrix `last` of the last fit that succeeded. A request that
needs a fit is refused as unfitted just when there was none, and otherwise only when the matrix
that it asks about has other columns than the last one. A fit is refused for a fault of its own. -/
structure FollowsFit {α : Type} (last training queried : Option (Matrix Float)) (needsFit : Bool)
    (fault? : Matrix Float → Option Error) (reply : Except Error α) : Prop where
  unfitted : needsFit → ((∃ what, reply = .error (.unfitted what)) ↔ last = none)
  columns : needsFit → ∀ x, last = some x → ∀ e, reply = .error e ↔
    ∃ y, queried = some y ∧ y.width ≠ x.width ∧ e = .columns x.width y.width
  training : ∀ x, training = some x → ∀ e, reply = .error e ↔ fault? x = some e

theorem FollowsFit.of_last {α : Type} {last training queried : Option (Matrix Float)}
    {needsFit : Bool} {fault? : Matrix Float → Option Error} {reply : Except Error α}
    (hnone : needsFit → last = none → ∃ what, reply = .error (.unfitted what))
    (hsome : needsFit → ∀ x, last = some x → ∀ e, reply = .error e ↔
      ∃ y, queried = some y ∧ y.width ≠ x.width ∧ e = .columns x.width y.width)
    (htraining : ∀ x, training = some x → ∀ e, reply = .error e ↔ fault? x = some e) :
    FollowsFit last training queried needsFit fault? reply where
  unfitted := by
    intro hneeds
    refine ⟨fun ⟨what, hreply⟩ => ?_, hnone hneeds⟩
    cases hlast : last with
    | none => rfl
    | some x =>
      obtain ⟨y, -, -, he⟩ := (hsome hneeds x hlast _).mp hreply
      cases he
  columns := hsome
  training := htraining

/-- A reply that depends on the number of columns asked about, if any are. -/
theorem refused_iff_columns {α : Type} {queried : Option (Matrix Float)} {width : Nat}
    {reply : Except Error α} (hanswered : queried = none → ∃ a, reply = .ok a)
    (hqueried : ∀ y, queried = some y →
      ∃ a, reply = if y.width = width then .ok a else .error (.columns width y.width))
    (e : Error) : reply = .error e ↔
      ∃ y, queried = some y ∧ y.width ≠ width ∧ e = .columns width y.width := by
  cases hq : queried with
  | none =>
    obtain ⟨a, rfl⟩ := hanswered hq
    constructor
    · rintro ⟨⟩
    · rintro ⟨y, ⟨⟩, -⟩
  | some y =>
    obtain ⟨a, hreply⟩ := hqueried y hq
    by_cases hwidth : y.width = width
    · rw [hreply, if_pos hwidth]
      constructor
      · rintro ⟨⟩
      · rintro ⟨_, ⟨⟩, hne, -⟩
        exact absurd hwidth hne
    · rw [hreply, if_neg hwidth]
      constructor
      · rintro ⟨⟩
        exact ⟨y, rfl, hwidth, rfl⟩
      · rintro ⟨_, ⟨⟩, -, rfl⟩
        rfl

/-! ## Detectors -/

namespace Detector

/-- A request, and the word that a detector without a seed takes for one. -/
abbrev Call := UInt64 × Request

namespace Request

/-- The matrix that a request fits to. -/
def training? : Request → Option (Matrix Float)
  | .fit x | .fitPredict x => some x
  | _ => none

/-- The matrix that a request asks about. -/
def queried? : Request → Option (Matrix Float)
  | .score x | .predict x | .detect x => some x
  | _ => none

/-- Whether a request can only be answered after a fit. -/
def needsFit : Request → Bool
  | .fit _ | .fitPredict _ => false
  | .score _ | .predict _ | .detect _ | .threshold | .fitted | .release => true

/-- Whether a request takes the detector away. -/
def isRelease : Request → Bool
  | .release => true
  | _ => false

end Request

/-- Why a detector cannot be fitted to a matrix. -/
def fault? (d : Detector) (x : Matrix Float) : Option Error :=
  if x.height = 0 then some (.empty .fitForest)
  else match d.contamination with
    | .auto => none
    | .fraction c => if c.isNaN then some (.parameter (.contamination c)) else none

/-- The last of the calls that was a fit and succeeded: its word and its matrix. -/
def lastFit (d : Detector) (calls : List Call) : Option (UInt64 × Matrix Float) :=
  calls.reverse.findSome? fun c =>
    (c.2.training?.filter fun x => (d.fault? x).isNone).map (c.1, ·)

theorem lastFit_concat (d : Detector) (calls : List Call) (c : Call) :
    d.lastFit (calls ++ [c]) = ((c.2.training?.filter fun x => (d.fault? x).isNone).map
      (c.1, ·)).or (d.lastFit calls) := by
  unfold lastFit
  rw [List.reverse_append, List.reverse_singleton, List.singleton_append, List.findSome?_cons]
  cases (c.2.training?.filter fun x => (d.fault? x).isNone).map (c.1, ·) <;> rfl

section Sessions

variable [Elementary]

/-- The answer to a call. -/
def call (d : Detector) (c : Call) : Except Error Reply × Option Detector := d.answer c.1 c.2

/-- The forest of the last fit that succeeded. -/
def lastForest (d : Detector) (calls : List Call) : Option Forest :=
  (d.lastFit calls).map fun c => d.grown c.1 c.2

theorem fit_eq (d : Detector) (chance : UInt64) (x : Matrix Float) : d.fit chance x =
    (d.fault? x).elim (.ok { d with model := some (d.grown chance x) }) .error := by
  unfold fit fitForest fault?
  by_cases hx : x.height = 0
  · rw [if_pos hx, if_pos hx]
    rfl
  · rw [if_neg hx, if_neg hx]
    cases d.contamination with
    | auto => rfl
    | fraction c =>
      dsimp only
      by_cases hc : c.isNaN
      · rw [if_pos hc, if_pos hc]
        rfl
      · rw [if_neg hc, if_neg hc]
        rfl

/-- A detector after calls, none of which took it away. -/
def after (d : Detector) (calls : List Call) : Detector := { d with model := d.lastForest calls }

/-- What needs a fit is answered by the fitted forest alone. -/
theorem answer_congr {d e : Detector} (h : d.model = e.model) {r : Request} (hr : r.needsFit)
    (chance chance' : UInt64) : (d.answer chance r).1 = (e.answer chance' r).1 := by
  have hfitted : d.fitted = e.fitted := by
    unfold fitted
    rw [h]
  have hscore : ∀ x, d.score x = e.score x := fun x => by
    unfold score
    rw [hfitted]
  cases r with
  | fit x => cases hr
  | fitPredict x => cases hr
  | score x => simp only [answer, hscore]
  | predict x => simp only [answer, predict, hfitted, hscore]
  | detect x => simp only [answer, detect, threshold, hfitted, hscore]
  | threshold => simp only [answer, threshold, hfitted]
  | fitted => simp only [answer, hfitted]
  | release => simp only [answer, hfitted]

theorem answer_unfitted {d : Detector} (h : d.model = none) {r : Request} (hr : r.needsFit)
    (chance : UInt64) : (d.answer chance r).1 = .error (.unfitted .forest) := by
  have hfitted : d.fitted = .error (.unfitted .forest) := by
    unfold fitted
    rw [h]
  cases r with
  | fit x => cases hr
  | fitPredict x => cases hr
  | _ =>
    simp only [answer, score, predict, detect, threshold, hfitted]
    rfl

/-- A request about a matrix is answered by way of the scores of the forest. -/
theorem exists_answer_queried {d : Detector} {f : Forest} (h : d.model = some f) {r : Request}
    {y : Matrix Float} (hy : r.queried? = some y) (chance : UInt64) :
    ∃ g, (d.answer chance r).1 = (f.score y).map g := by
  have hfitted : d.fitted = .ok f := by
    unfold fitted
    rw [h]
  have hscore : ∀ x, d.score x = f.score x := fun x => by
    unfold score
    rw [hfitted]
    rfl
  cases r with
  | score x =>
    obtain rfl := Option.some.inj hy
    exact ⟨.scores, by simp only [answer, hscore]⟩
  | predict x =>
    obtain rfl := Option.some.inj hy
    refine ⟨fun scores => .flags (f.flag scores), ?_⟩
    simp only [answer, predict, hfitted, hscore]
    cases f.score x <;> rfl
  | detect x =>
    obtain rfl := Option.some.inj hy
    refine ⟨fun scores => .detection ⟨scores, scores.map fun s => decide (f.threshold < s),
      f.threshold, (scores.map fun s => decide (f.threshold < s)).countP id⟩, ?_⟩
    simp only [answer, detect, threshold, hfitted, hscore]
    cases f.score x <;> rfl
  | _ => cases hy

/-- A fitted detector refuses nothing but matrices of other columns. -/
theorem answer_eq_error_iff {d : Detector} {f : Forest} (h : d.model = some f) (hf : f.Fits)
    {r : Request} (hr : r.needsFit) (chance : UInt64) (e : Error) :
    (d.answer chance r).1 = .error e ↔
      ∃ y, r.queried? = some y ∧ y.width ≠ f.width ∧ e = .columns f.width y.width := by
  refine refused_iff_columns (fun hnone => ?_) (fun y hy => ?_) e
  · have hfitted : d.fitted = .ok f := by
      unfold fitted
      rw [h]
    cases r with
    | threshold => exact ⟨.threshold f.threshold, by simp only [answer, threshold, hfitted]; rfl⟩
    | fitted => exact ⟨.forest f, by simp only [answer, hfitted]; rfl⟩
    | release => exact ⟨.forest f, by simp only [answer, hfitted]; rfl⟩
    | fit x => cases hr
    | fitPredict x => cases hr
    | _ => cases hnone
  · obtain ⟨g, hreply⟩ := exists_answer_queried h hy chance
    refine ⟨g (y.rows.map f.scoreRow), hreply.trans ?_⟩
    by_cases hwidth : y.width = f.width
    · rw [if_pos hwidth, hf.score_eq hwidth]
      rfl
    · have hscore : f.score y = .error (.columns f.width y.width) := if_neg hwidth
      rw [if_neg hwidth, hscore]
      rfl

/-- A fit succeeds or fails whatever was fitted before, and a failing one changes nothing. -/
theorem exists_answer_training (d : Detector) {r : Request} {x : Matrix Float}
    (hx : r.training? = some x) (chance : UInt64) : ∃ a, ∀ model,
      { d with model }.answer chance r = (d.fault? x).elim
        (.ok a, some { d with model := some (d.grown chance x) })
        fun e => (.error e, some { d with model }) := by
  have hfit : ∀ model, { d with model }.fit chance x =
      (d.fault? x).elim (.ok { d with model := some (d.grown chance x) }) .error := fun model =>
    fit_eq { d with model } chance x
  cases r with
  | fit y =>
    obtain rfl := Option.some.inj hx
    refine ⟨.forest (d.grown chance y), fun model => ?_⟩
    simp only [answer, hfit model]
    cases d.fault? y <;> rfl
  | fitPredict y =>
    obtain rfl := Option.some.inj hx
    have hpredict : { d with model := some (d.grown chance y) }.predict y =
        .ok ((d.grown chance y).flag (y.rows.map (d.grown chance y).scoreRow)) := by
      have hscore : { d with model := some (d.grown chance y) }.score y =
          .ok (y.rows.map (d.grown chance y).scoreRow) := d.score_grown chance rfl
      unfold predict
      rw [hscore]
      rfl
    refine ⟨.flags ((d.grown chance y).flag (y.rows.map (d.grown chance y).scoreRow)),
      fun model => ?_⟩
    simp only [answer, hfit model]
    cases d.fault? y with
    | none => simp only [Option.elim_none, hpredict]; rfl
    | some e => rfl
  | _ => cases hx

/-- Other requests leave the detector as it is, or take it away. -/
theorem answer_kept (d : Detector) {r : Request} (hr : r.training? = none) (chance : UInt64) :
    (d.answer chance r).2 = if r.isRelease then none else some d := by
  cases r with
  | fit x => cases hr
  | fitPredict x => cases hr
  | _ => rfl

theorem after_nil {d : Detector} (h : d.model = none) : d.after [] = d := by
  show { d with model := none } = d
  rw [← h]

theorem after_concat_kept (d : Detector) (calls : List Call) {c : Call}
    (hc : c.2.training? = none) : d.after (calls ++ [c]) = d.after calls := by
  unfold after lastForest
  rw [lastFit_concat, hc]
  rfl

theorem after_concat_training (d : Detector) (calls : List Call) {c : Call} {x : Matrix Float}
    (hc : c.2.training? = some x) : d.after (calls ++ [c]) = (d.fault? x).elim
      { d with model := some (d.grown c.1 x) } fun _ => d.after calls := by
  unfold after lastForest
  rw [lastFit_concat, hc]
  cases hx : d.fault? x <;> simp [Option.filter, hx]

/-- One call after others. -/
theorem call_after (d : Detector) (calls : List Call) (c : Call) :
    ((d.after calls).call c).2 =
      if c.2.isRelease then none else some (d.after (calls ++ [c])) := by
  cases hx : c.2.training? with
  | none =>
    rw [after_concat_kept d calls hx]
    exact answer_kept (d.after calls) hx c.1
  | some x =>
    have hkept : c.2.isRelease = false := by
      cases hr : c.2 <;> first | rfl | (rw [hr] at hx; cases hx)
    obtain ⟨a, ha⟩ := exists_answer_training d hx c.1
    rw [after_concat_training d calls hx, hkept]
    show (({ d with model := d.lastForest calls } : Detector).answer c.1 c.2).2 = _
    rw [ha]
    cases d.fault? x <;> rfl

/-- A session goes on with what the last fit that succeeded has left. -/
theorem session_call {d : Detector} (hd : d.model = none) {calls : List Call}
    (h : ∀ c ∈ calls, c.2.isRelease = false) :
    (session call d calls).2 = some (d.after calls) := by
  have hafter := session_after (call_after d) h
  rwa [after_nil hd] at hafter

theorem followsFit_call (d : Detector) (calls : List Call) (c : Call) :
    FollowsFit ((d.lastFit calls).map (·.2)) c.2.training? c.2.queried? c.2.needsFit d.fault?
      ((d.after calls).call c).1 := by
  refine .of_last (fun hneeds hlast => ?_) (fun hneeds x hlast e => ?_) fun x hx e => ?_
  · have hmodel : (d.after calls).model = none :=
      congrArg (Option.map _) (Option.map_eq_none_iff.mp hlast)
    exact ⟨.forest, answer_unfitted hmodel hneeds c.1⟩
  · obtain ⟨l, hl, rfl⟩ := Option.map_eq_some_iff.mp hlast
    have hmodel : (d.after calls).model = some (d.grown l.1 l.2) := congrArg (Option.map _) hl
    have herror := answer_eq_error_iff hmodel (d.fits_grown l.1 l.2) hneeds c.1 e
    rwa [width_grown] at herror
  · obtain ⟨a, ha⟩ := exists_answer_training d hx c.1
    have hreply : ((d.after calls).call c).1 = (d.fault? x).elim (.ok a) .error := by
      refine (congrArg Prod.fst (ha (d.lastForest calls))).trans ?_
      cases d.fault? x <;> rfl
    rw [hreply]
    cases d.fault? x <;> simp

/-- How a call after others is answered, and what is left of the detector. Whether and how a
request is answered that needs a fit depends on the last forest alone; a fit depends on the
settings; and a failing request leaves the settings and the forest as they were. -/
structure Obeys (d : Detector) (before : List Call) (c : Call) (reply : Except Error Reply)
    (left : Option Detector) : Prop where
  follows : FollowsFit ((d.lastFit before).map (·.2)) c.2.training? c.2.queried? c.2.needsFit
    d.fault? reply
  determined : c.2.needsFit → ∀ (e : Detector) (chance : UInt64),
    e.model = d.lastForest before → reply = (e.answer chance c.2).1
  fresh : ∀ x, c.2.training? = some x → reply = (d.call c).1
  leaves : left = if c.2.isRelease then none
    else some { d with model := d.lastForest (before ++ [c]) }
  unchanged : ∀ e, reply = .error e → c.2.isRelease = false →
    left = some { d with model := d.lastForest before }

theorem obeys_call (d : Detector) (before : List Call) (c : Call) :
    d.Obeys before c ((d.after before).call c).1 ((d.after before).call c).2 := by
  constructor
  case follows => exact followsFit_call d before c
  case determined =>
    intro hneeds e chance he
    exact answer_congr he.symm hneeds c.1 chance
  case fresh =>
    intro x hx
    obtain ⟨a, ha⟩ := exists_answer_training d hx c.1
    refine (congrArg Prod.fst (ha (d.lastForest before))).trans ?_
    refine Eq.trans ?_ (congrArg Prod.fst (ha d.model)).symm
    cases d.fault? x <;> rfl
  case leaves => exact call_after d before c
  case unchanged =>
    intro e he hkept
    cases hx : c.2.training? with
    | none => exact (answer_kept (d.after before) hx c.1).trans (by rw [hkept]; rfl)
    | some x =>
      have hfault := ((followsFit_call d before c).training x hx e).mp he
      rw [call_after, hkept, after_concat_training d before hx, hfault]
      rfl

end Sessions

end Detector

end LoginForest
