/-
  Flags of a matrix. A detector, the forest in it and a bundle with this forest answer alike
  (`Detector.AnswersAlike`): each of them scores the rows and flags the scores above the threshold
  of the forest. Rows are scored one by one (`Forest.score_eq_mapM`), so that a matrix can be
  scored in blocks (`Forest.score_madeUpOf`).
-/
import LoginForest.Proofs.Session.Detector

namespace LoginForest

/-! ## Blocks of rows -/

/-- Blocks that make up a matrix, one below the other. -/
structure Matrix.MadeUpOf {α : Type} (x : Matrix α) (blocks : List (Matrix α)) : Prop where
  width : ∀ b ∈ blocks, b.width = x.width
  rows : (blocks.map (·.rows)).flatten = x.rows

namespace Forest

variable [Elementary] {f : Forest} {x : Matrix Float}

/-- The score of one row. -/
def scoreRow? (f : Forest) (row : List Float) : Except Error Float :=
  if f.trees.all fun t => t.admits row then .ok (f.scoreRow row) else .error .outOfRange

/-- Rows are scored one by one. -/
theorem score_eq_mapM (hx : x.width = f.width) : f.score x = x.rows.mapM f.scoreRow? := by
  unfold score admits
  rw [if_pos hx]
  generalize x.rows = rows
  induction rows with
  | nil => rfl
  | cons row rows ih =>
    rw [List.mapM_cons, ← ih, List.all_cons, scoreRow?]
    cases f.trees.all fun t => t.admits row with
    | false => rfl
    | true =>
      rw [Bool.true_and, if_pos rfl, Except.ok_bind]
      split <;> rfl

/-- The scores of a matrix are those of its blocks put together. -/
theorem score_madeUpOf (hx : x.width = f.width) {blocks : List (Matrix Float)}
    (h : x.MadeUpOf blocks) : f.score x = (blocks.mapM f.score).map List.flatten := by
  have hblocks : blocks.mapM f.score = blocks.mapM fun b => b.rows.mapM f.scoreRow? :=
    List.mapM_congr_mem fun b hb => score_eq_mapM ((h.width b hb).trans hx)
  rw [score_eq_mapM hx, ← h.rows, List.mapM_flatten, List.mapM_map, hblocks]
  rfl

/-- So are the flags. -/
theorem predict_madeUpOf (hx : x.width = f.width) {blocks : List (Matrix Float)}
    (h : x.MadeUpOf blocks) : f.predict x = (blocks.mapM f.predict).map List.flatten := by
  have hblocks : blocks.mapM f.predict = (blocks.mapM f.score).map (List.map f.flag) :=
    List.mapM_map_result f.score f.flag blocks
  rw [hblocks, predict, score_madeUpOf hx h]
  cases blocks.mapM f.score with
  | error e => rfl
  | ok scores => exact congrArg Except.ok List.map_flatten

omit [Elementary] in
/-- A flag says whether the score in its place is above the threshold. -/
theorem getElem?_flag (f : Forest) (scores : List Float) (i : Nat) :
    (f.flag scores)[i]? = scores[i]?.map fun s => decide (f.threshold < s) :=
  List.getElem?_map

end Forest

/-! ## Detectors, forests and bundles -/

namespace Detector

section Agreement

variable [Elementary]

/-- Whatever is asked for the scores or the flags of a matrix gives those of the forest, or
fails as it does. -/
structure AnswersAlike (d : Detector) (f : Forest) (x : Matrix Float) : Prop where
  score : d.score x = f.score x
  predict : d.predict x = (f.score x).map f.flag
  model : f.predict x = (f.score x).map f.flag
  threshold : d.threshold = .ok f.threshold
  detect : d.detect x = (f.score x).map fun scores =>
    ⟨scores, f.flag scores, f.threshold, (f.flag scores).countP id⟩
  bundle : ∀ (b : Bundle) (y : Matrix Float), b.forest = f → b.scaling.transform y = .ok x →
    b.scoreMatrix y = (f.score x).map fun scores => (scores, f.flag scores)

theorem answersAlike {d : Detector} {f : Forest} (hd : d.fitted = .ok f) (x : Matrix Float) :
    d.AnswersAlike f x := by
  have hscore : d.score x = f.score x := by
    unfold Detector.score
    rw [hd]
    rfl
  have hthreshold : d.threshold = .ok f.threshold := by
    unfold Detector.threshold
    rw [hd]
    rfl
  constructor
  case score => exact hscore
  case predict =>
    unfold Detector.predict
    rw [hd, hscore]
    cases f.score x <;> rfl
  case model => rfl
  case threshold => exact hthreshold
  case detect =>
    unfold Detector.detect
    rw [hscore, hthreshold]
    cases f.score x <;> rfl
  case bundle =>
    intro b y hb hy
    unfold Bundle.scoreMatrix
    rw [hy, hb, Except.ok_bind]
    cases f.score x <;> rfl

theorem fit_of_draws {d : Detector} {chance chance' : UInt64}
    (h : d.seed.isSome ∨ chance = chance') (x : Matrix Float) :
    d.fit chance x = d.fit chance' x := by
  rcases h with hseed | rfl
  · obtain ⟨seed, hseed⟩ := Option.isSome_iff_exists.mp hseed
    rw [fit_eq, fit_eq]
    simp only [grown, hseed, Option.getD_some]
  · rfl

/-- Fitting and predicting at once is predicting after the fit. -/
theorem answer_fitPredict (d : Detector) (chance : UInt64) (x : Matrix Float) :
    d.answer chance (.fitPredict x) =
      (((d.fit chance x).bind fun d' => d'.predict x).map .flags,
        (d.answer chance (.fit x)).2) := by
  cases hfit : d.fit chance x with
  | error e => simp only [answer, hfit]; rfl
  | ok d' => simp only [answer, hfit]; rfl

/-- All ways to flag a matrix agree. Of a detector with a forest, the scores and flags are those
of the forest and of every bundle that has it and scales to the matrix; a flag is set where the
score is above the threshold, and the flags that are set are counted. After a fit there is a score
for every row. Blocks of rows have the scores and flags that their rows have in the matrix. Fitting
and predicting at once gives the flags that are predicted after the fit, where the settings have a
seed or draw the same one. -/
theorem flags_agree {d : Detector} {f : Forest} (hd : d.fitted = .ok f) {x : Matrix Float}
    (hx : x.width = f.width) :
    d.AnswersAlike f x ∧
    (∀ (scores : List Float) (i : Nat),
      (f.flag scores)[i]? = scores[i]?.map fun s => decide (f.threshold < s)) ∧
    (∀ (before : Detector) (chance : UInt64) (y : Matrix Float), before.fit chance y = .ok d →
      f.width = y.width ∧ f.score x = .ok (x.rows.map f.scoreRow)) ∧
    (∀ blocks, x.MadeUpOf blocks → f.score x = (blocks.mapM f.score).map List.flatten ∧
      f.predict x = (blocks.mapM f.predict).map List.flatten) ∧
    ∀ (before : Detector) (chance chance' : UInt64), before.seed.isSome ∨ chance = chance' →
      before.answer chance' (.fitPredict x) =
        (((before.fit chance x).bind fun d' => d'.predict x).map .flags,
          (before.answer chance (.fit x)).2) := by
  refine ⟨answersAlike hd x, f.getElem?_flag, fun before chance y hfit => ?_,
    fun blocks h => ⟨Forest.score_madeUpOf hx h, Forest.predict_madeUpOf hx h⟩,
    fun before chance chance' hdraws => ?_⟩
  · obtain rfl := fit_eq_ok hfit
    obtain rfl := Except.ok.inj hd
    exact ⟨before.width_grown chance y, (before.fits_grown chance y).score_eq hx⟩
  · have hfit : (before.answer chance' (.fit x)).2 = (before.answer chance (.fit x)).2 := by
      simp only [answer, fit_of_draws hdraws x]
    rw [answer_fitPredict, fit_of_draws hdraws x, hfit]

end Agreement

/-- The first row of the mixed column, and the other two. -/
def mixedBlocks : List (Matrix Float) :=
  [⟨1, [[Number.ofNat 0]], by simp⟩,
    ⟨1, [[Number.ofNat 0 / Number.ofNat 0], [Number.ofNat 1]], by simp⟩]

/-- A detector that is fitted to the mixed column scores its three rows, as a whole and in two
blocks. -/
theorem flags_agree_mixedColumn : ∃ d f scores,
    @fit Elementary.series standard 0 Tree.mixedColumn = .ok d ∧ d.fitted = .ok f ∧
      Tree.mixedColumn.width = f.width ∧
      @score Elementary.series d Tree.mixedColumn = .ok scores ∧ scores.length = 3 ∧
      @predict Elementary.series d Tree.mixedColumn = .ok (f.flag scores) ∧
      (mixedBlocks.mapM (@Forest.score Elementary.series f)).map List.flatten = .ok scores := by
  have hfault : standard.fault? Tree.mixedColumn = none :=
    Option.isNone_iff_eq_none.mp (by decide +kernel)
  have hfit := @fit_eq Elementary.series standard 0 Tree.mixedColumn
  rw [hfault] at hfit
  have hblocks : Tree.mixedColumn.MadeUpOf mixedBlocks := ⟨by decide, rfl⟩
  let f := @grown Elementary.series standard 0 Tree.mixedColumn
  obtain ⟨halike, -, hscores, hmade, -⟩ :=
    @flags_agree Elementary.series { standard with model := some f } f rfl Tree.mixedColumn
      (@width_grown Elementary.series standard 0 Tree.mixedColumn).symm
  obtain ⟨hwidth, hscore⟩ := hscores standard 0 Tree.mixedColumn hfit
  refine ⟨{ standard with model := some f }, f,
    Tree.mixedColumn.rows.map (@Forest.scoreRow Elementary.series f), hfit, rfl, hwidth.symm,
    (@AnswersAlike.score Elementary.series _ _ _ halike).trans hscore, rfl, ?_, ?_⟩
  · rw [@AnswersAlike.predict Elementary.series _ _ _ halike, hscore]
    rfl
  · rw [← (hmade mixedBlocks hblocks).1, hscore]

end Detector

end LoginForest
