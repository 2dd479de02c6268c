/-
  What the opening of a bundle ensures for scoring with it. Magic, version and checksum are those
  of the envelope; of the document itself only the widths of scaling and forest are compared
  (`accepted_iff`). So a matrix of another width is always refused, but a tree may ask for a
  feature that no row has, and a forest may have no tree at all (`accepted_unscorable`). A forest
  that was grown has neither fault.
-/
import LoginForest.Proofs.Bundle.Reread
import LoginForest.Proofs.Scoring.Rescore

namespace LoginForest

open Number

/-- Without a tree, every score is the power of what is not a number. -/
theorem Forest.scoreRow_of_no_trees [Elementary] {f : Forest} (h : f.trees = [])
    (row : List Float) : ∃ y : Float, y.isNaN ∧ f.scoreRow row = Elementary.twoToThe y := by
  have hmean : (ofNat 0 / ofNat 0).isNaN := by decide +kernel
  refine ⟨_, isNaN_neg_div hmean (pathUnit f.expectedPathLength), ?_⟩
  unfold scoreRow
  rw [h]
  rfl

/-- A grown forest has a tree. -/
theorem Detector.trees_grown_ne_nil [Elementary] {d : Detector} (h : 1 ≤ d.trees)
    (chance : UInt64) (x : Matrix Float) : (d.grown chance x).trees ≠ [] := by
  unfold grown
  rw [Forest.calibrate_eq, ← List.length_pos_iff]
  show 0 < ((Random.Generator.words d.trees _).map _).length
  rw [List.length_map, Random.Generator.length_words]
  exact h

namespace Bundle

/-- What some document is read as, or some file. -/
def Accepted (b : Bundle) : Prop :=
  (∃ s, ofJson s = .ok b) ∨ ∃ content, load content = .ok b

/-! ## What is checked -/

theorem ofParsed_eq_ok {n : Option Json.Node} {b : Bundle} (h : ofParsed n = .ok b) :
    ∃ payload, ofPayload payload = .ok b ∧ b.scaling.width = b.forest.width := by
  unfold ofParsed at h
  split at h
  case h_1 e _ => exact ⟨e.payload, (ofEnvelope_eq_ok_iff.mp h).2.2.2⟩
  case h_2 => cases h

/-- A bundle is accepted when some payload says it and its widths are equal; nothing else is
looked at. -/
theorem accepted_iff {b : Bundle} :
    b.Accepted ↔ (∃ payload, ofPayload payload = .ok b) ∧ b.scaling.width = b.forest.width := by
  constructor
  · rintro (⟨s, h⟩ | ⟨content, h⟩)
    · obtain ⟨payload, hread, hwidth⟩ := ofParsed_eq_ok h
      exact ⟨⟨payload, hread⟩, hwidth⟩
    · cases content with
      | none => cases h
      | some bytes =>
        obtain ⟨payload, hread, hwidth⟩ := ofParsed_eq_ok h
        exact ⟨⟨payload, hread⟩, hwidth⟩
  · rintro ⟨⟨payload, hread⟩, hwidth⟩
    refine .inl ⟨(Envelope.around payload).toJson, ?_⟩
    rw [ofJson_around, hread]
    show (if b.scaling.width ≠ b.forest.width then _ else Except.ok b) = _
    rw [if_neg (not_not.mpr hwidth)]

/-! ## What follows for scoring -/

section Scoring

variable [Elementary] {b : Bundle}

/-- Scoring where scaling and forest have the width of the matrix. -/
theorem scoreMatrix_eq (hwidth : b.scaling.width = b.forest.width) {x : Matrix Float}
    (hx : x.width = b.forest.width) :
    ∃ y, b.scaling.transform x = .ok y ∧ y.width = x.width ∧ y.height = x.height ∧
      b.scoreMatrix x =
        if b.forest.admits y then
          .ok (y.rows.map b.forest.scoreRow, b.forest.flag (y.rows.map b.forest.scoreRow))
        else .error .outOfRange := by
  have hcolumns : b.scaling.columns.length = x.width := hwidth.trans hx.symm
  have htransform := Scaling.transform_eq hcolumns
  refine ⟨_, htransform, rfl, Scaling.height_apply .., ?_⟩
  unfold scoreMatrix
  rw [htransform, Except.ok_bind]
  unfold Forest.score
  rw [if_pos (show (b.scaling.apply x hcolumns).width = b.forest.width from hx)]
  split <;> rfl

theorem scoreMatrix_of_width_ne (hwidth : b.scaling.width = b.forest.width) {x : Matrix Float}
    (hx : x.width ≠ b.forest.width) :
    b.scoreMatrix x = .error (.columns b.forest.width x.width) := by
  have htransform : b.scaling.transform x = .error (.columns b.forest.width x.width) := by
    unfold Scaling.transform
    rw [dif_neg (fun h => hx (h.symm.trans hwidth)), hwidth]
  unfold scoreMatrix
  rw [htransform]
  rfl

/-- With an accepted bundle a matrix is refused for its width just when that is not the width of
the forest. A matrix of this width gives a score and a flag for every row, or ends the program
when a row is asked for a feature that it does not have; where all splits ask for features of
the forest, it gives them always. Without a tree, the scores are powers of what is not a number.
What is read from the document of a run asks for no other features and has a tree. -/
theorem scoreMatrix_of_accepted (h : b.Accepted) :
    (∀ x : Matrix Float, b.scoreMatrix x = .error (.columns b.forest.width x.width) ↔
        x.width ≠ b.forest.width) ∧
      (∀ x : Matrix Float, x.width = b.forest.width →
        ∃ y, b.scaling.transform x = .ok y ∧ y.width = x.width ∧ y.height = x.height ∧
          b.scoreMatrix x =
            if b.forest.admits y then
              .ok (y.rows.map b.forest.scoreRow, b.forest.flag (y.rows.map b.forest.scoreRow))
            else .error .outOfRange) ∧
      (b.forest.Fits → ∀ x : Matrix Float, x.width = b.forest.width →
        ∃ scores flags, b.scoreMatrix x = .ok (scores, flags) ∧ scores.length = x.height ∧
          flags.length = x.height) ∧
      (b.forest.trees = [] →
        ∀ row, ∃ y : Float, y.isNaN ∧ b.forest.scoreRow row = Elementary.twoToThe y) ∧
      (∀ (s : Settings) (occasion : Occasion) (trusted all : List Attempt) (o : Outcome),
        s.run occasion trusted all = .ok o → ofJson o.bundle.toJson = .ok b →
          b.forest.Fits ∧ b.forest.trees ≠ []) := by
  obtain ⟨-, hwidth⟩ := accepted_iff.mp h
  refine ⟨fun x => ⟨fun herror hx => ?_, scoreMatrix_of_width_ne hwidth⟩,
    fun x => scoreMatrix_eq hwidth, fun hfits x hx => ?_, Forest.scoreRow_of_no_trees,
    fun s occasion trusted all o hrun hread => ?_⟩
  · obtain ⟨y, -, -, -, hscore⟩ := scoreMatrix_eq hwidth hx
    rw [hscore] at herror
    split at herror <;> cases herror
  · obtain ⟨y, -, hwidth', hheight, hscore⟩ := scoreMatrix_eq hwidth hx
    rw [if_pos (hfits.admits (hwidth'.trans hx))] at hscore
    have hlength : (y.rows.map b.forest.scoreRow).length = x.height :=
      (List.length_map _).trans hheight
    exact ⟨_, _, hscore, hlength, (b.forest.length_flag _).trans hlength⟩
  · obtain rfl := eq_of_ofJson_toJson hread
    obtain ⟨-, -, rfl⟩ := Settings.run_eq_ok_iff.mp hrun
    have htrees : 1 ≤ s.detector.trees := by
      rw [Settings.trees_detector]
      exact le_max_right _ _
    exact ⟨s.fits_forestOf occasion.chance _, Detector.trees_grown_ne_nil htrees _ _⟩

end Scoring

/-- The small bundle is accepted, and scores every matrix of two columns. -/
theorem scoreMatrix_of_small : small.Accepted ∧
    (∀ x : Matrix Float, @scoreMatrix Elementary.series small x = .error (.columns 2 x.width) ↔
      x.width ≠ 2) ∧
    ∀ x : Matrix Float, x.width = 2 →
      ∃ scores flags, @scoreMatrix Elementary.series small x = .ok (scores, flags) ∧
        scores.length = x.height ∧ flags.length = x.height := by
  have haccepted : small.Accepted := .inl ⟨_, ofJson_toJson storable_small⟩
  have hfits : small.forest.Fits := by
    intro t ht
    obtain rfl := List.mem_singleton.mp ht
    exact ⟨by decide, trivial, trivial⟩
  obtain ⟨hcolumns, -, hscore, -, -⟩ := @scoreMatrix_of_accepted Elementary.series small haccepted
  exact ⟨haccepted, hcolumns, hscore hfits⟩

/-! ## Accepted forests that cannot be scored with -/

/-- The small bundle with other trees. -/
def withTrees (trees : List Tree) : Bundle :=
  { small with forest := { small.forest with trees } }

theorem ofJson_withTrees {trees : List Tree}
    (h : ∀ t ∈ trees, t.levels ≤ Forest.treeLevels ∧ t.Storable) :
    ofJson (withTrees trees).toJson = .ok (withTrees trees) := by
  obtain ⟨hprovenance, hcolumns, hforest, hwidth⟩ := storable_small
  refine ofJson_toJson ⟨hprovenance, hcolumns, ?_, hwidth⟩
  exact { hforest with levels := fun t ht => (h t ht).1, trees := fun t ht => (h t ht).2 }

/-- A tree that asks for the third feature. -/
def strayTree : Tree := .split 2 half (.leaf ⟨1, 1⟩) (.leaf ⟨1, 2⟩)

/-- One row of two zeros. -/
def zeroRow : Matrix Float := ⟨2, [[ofNat 0, ofNat 0]], by simp⟩

/-- A forest without a tree is accepted, and its scores are powers of what is not a number. So
is a tree that asks two features for a third one, and the program does not get over it. -/
theorem accepted_unscorable :
    ((withTrees []).Accepted ∧ (withTrees []).forest.trees = [] ∧
      ∀ powers : Elementary, ∃ y : Float, y.isNaN ∧
        @scoreMatrix powers (withTrees []) zeroRow =
          .ok ([powers.twoToThe y], [decide (half < powers.twoToThe y)])) ∧
    (withTrees [strayTree]).Accepted ∧ ¬ (withTrees [strayTree]).forest.Fits ∧
      zeroRow.width = (withTrees [strayTree]).forest.width ∧
      ∀ powers : Elementary,
        @scoreMatrix powers (withTrees [strayTree]) zeroRow = .error .outOfRange := by
  have hhalf : (half : Float).isFinite := by decide +kernel
  have hstray : ∀ t ∈ [strayTree], t.levels ≤ Forest.treeLevels ∧ t.Storable := by
    intro t ht
    obtain rfl := List.mem_singleton.mp ht
    exact ⟨by decide, by decide, hhalf, ⟨by decide, by decide⟩, by decide, by decide⟩
  refine ⟨⟨.inl ⟨_, ofJson_withTrees (by simp)⟩, rfl, fun powers => ?_⟩,
    .inl ⟨_, ofJson_withTrees hstray⟩, fun hfits => ?_, rfl, fun powers => rfl⟩
  · obtain ⟨y, hy, hscore⟩ := @Forest.scoreRow_of_no_trees powers (withTrees []).forest rfl
      (List.zipWith (fun v c => (v - c.median) / c.scale) [ofNat 0, ofNat 0] small.scaling.columns)
    refine ⟨y, hy, ?_⟩
    rw [← hscore]
    rfl
  · have hfeature := (hfits strayTree (List.mem_singleton_self _)).1
    exact absurd hfeature (by decide)

end Bundle

end LoginForest
