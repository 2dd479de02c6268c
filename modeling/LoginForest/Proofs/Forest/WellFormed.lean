/-
  Fitted forests. A detector that is set up step by step has a tree to grow at least, so that on
  every matrix with a row its fit gives a forest (`fit_grownOn`): as many trees as it is set to,
  each of which holds a sample of rows, lies no deeper than the binary logarithm of their number,
  and asks for columns of the matrix. On the way there all samples, draws and entries exist
  (`trees?_eq`), and afterwards every row of the same width has a score.
-/
import LoginForest.Proofs.Forest.Checked
import LoginForest.Proofs.Forest.Scores
import LoginForest.Proofs.Random.Sample
import LoginForest.Proofs.Scoring.Run
import Mathlib.Data.Nat.Log

namespace LoginForest

open LoginForest.Random (Draws Generator)

/-! ## Heights and sizes -/

/-- The limit of levels is the binary logarithm, rounded up. -/
theorem ceilLog2_eq_clog (n : Nat) : ceilLog2 n = Nat.clog 2 n := by
  refine le_antisymm (ceilLog2_le (Nat.le_pow_clog (by decide) n)) ?_
  refine Nat.clog_le_of_le_pow ?_
  unfold ceilLog2
  split
  case isTrue hn => rwa [pow_zero]
  case isFalse hn =>
    have hlog : n - 1 < 2 ^ ((n - 1).log2 + 1) := Nat.lt_log2_self
    omega

namespace Tree

/-- A tree does not reach below the room that it is given. -/
theorem height_grow_le {γ : Type} [Draws γ] (width room depth : Nat) (rows : List (List Float))
    (g : γ) : (grow width room depth rows g).1.height ≤ depth + room := by
  induction room generalizing depth rows g with
  | zero => exact le_rfl
  | succ room ih =>
    rcases grow_cases width room depth rows g with
      hleaf | ⟨range, -, g₁, g₂, g₃, -, -, hsplit⟩
    · rw [hleaf]
      exact Nat.le_add_right depth (room + 1)
    · rw [hsplit, height, ← Nat.add_assoc, Nat.add_right_comm]
      exact max_le (ih _ _ g₂) (ih _ _ g₃)

/-- The size of a tree is the number of rows in its leaves, in a word. -/
theorem size_eq (t : Tree) : t.size = .ofNat (t.leaves.map (·.size)).sum := by
  induction t with
  | leaf l => simp [size, leaves]
  | split feature threshold left right ihl ihr =>
    rw [size, ihl, ihr, leaves, List.map_append, List.sum_append, UInt64.ofNat_add]

/-- What a tree of `n` rows of a matrix with `width` columns is. -/
structure GrownOn (width n : Nat) (t : Tree) : Prop where
  leaves : (t.leaves.map (·.size)).sum = n
  size : t.size = .ofNat n
  height : t.height ≤ Nat.clog 2 n
  fits : t.Fits width

theorem grownOn_build {γ : Type} [Draws γ] {x : Matrix Float} {indices : List Nat} (g : γ)
    (hindices : ∀ k ∈ indices, k < x.height) :
    (build x indices 0 (ceilLog2 indices.length) g).1.GrownOn x.width indices.length := by
  have hleaves : ((build x indices 0 (ceilLog2 indices.length) g).1.leaves.map (·.size)).sum =
      indices.length := by
    have hsorts := grow_sorts x.width (ceilLog2 indices.length - 0) 0 (x.select indices) g
    rw [Matrix.select_eq hindices] at hsorts
    rw [build, Matrix.select_eq hindices, hsorts.sum_size_leaves, List.length_map]
  constructor
  case leaves => exact hleaves
  case size => rw [size_eq, hleaves]
  case height =>
    have hheight := height_grow_le x.width (ceilLog2 indices.length - 0) 0 (x.select indices) g
    rw [Nat.sub_zero, Nat.zero_add] at hheight
    rw [← ceilLog2_eq_clog]
    exact hheight
  case fits => exact grow_fits ..

end Tree

/-! ## Trees with every step checked -/

/-- A sample, of no more numbers than there are. -/
def Random.sample? (n k : Nat) (g : Generator) : Option (List Nat × Generator) :=
  if k ≤ n then some (sample n k g) else none

/-- The tree of a seed. -/
def Tree.ofSeed? (x : Matrix Float) (sampleSize : Nat) (seed : UInt64) : Option Tree := do
  let (indices, g) ← Random.sample? x.height sampleSize (.ofSeed seed)
  let (t, _) ← build? x indices 0 (ceilLog2 sampleSize) g
  return t

/-- The trees of a forest. -/
def Forest.trees? (x : Matrix Float) (trees sampleSize : Nat) (seed : UInt64) :
    Option (List Tree) :=
  (Generator.words trees (.ofSeed seed)).mapM (Tree.ofSeed? x sampleSize)

section Samples

variable {x : Matrix Float} {sampleSize : Nat}

theorem Tree.grownOn_ofSeed (h : sampleSize ≤ x.height) (seed : UInt64) :
    (ofSeed x sampleSize seed).GrownOn x.width sampleSize := by
  have hsample := Random.isSample_sample h (.ofSeed seed)
  have hgrown := grownOn_build (Random.sample x.height sampleSize (.ofSeed seed)).2 hsample.lt
  rw [hsample.length] at hgrown
  exact hgrown

theorem Tree.ofSeed?_eq (h : sampleSize ≤ x.height) (seed : UInt64) :
    ofSeed? x sampleSize seed = some (ofSeed x sampleSize seed) := by
  have hsample := Random.isSample_sample h (.ofSeed seed)
  rw [ofSeed?, Random.sample?, if_pos h, Option.bind_eq_bind, Option.bind_some]
  dsimp only
  rw [build?_eq _ _ _ hsample.lt]
  rfl

/-- All trees of a forest can be grown. -/
theorem Forest.trees?_eq [Elementary] (h : sampleSize ≤ x.height) (trees : Nat)
    (contamination : Contamination) (seed : UInt64) :
    trees? x trees sampleSize seed = some (grow x trees sampleSize contamination seed).trees :=
  List.mapM_eq_some_map fun seed _ => Tree.ofSeed?_eq h seed

end Samples

/-! ## Detectors -/

namespace Detector

/-- The detectors that can be set up, from the standard one on. -/
inductive Configured : Detector → Prop
  | standard : Configured standard
  | withTrees {d : Detector} (n : Nat) (h : Configured d) : Configured (d.withTrees n)
  | withSampleSize {d : Detector} (s : SampleSize) (h : Configured d) :
    Configured (d.withSampleSize s)
  | withContamination {d : Detector} (c : Contamination) (h : Configured d) :
    Configured (d.withContamination c)
  | withSeed {d : Detector} (seed : UInt64) (h : Configured d) : Configured (d.withSeed seed)
  | withJobs {d : Detector} (n : Nat) (h : Configured d) : Configured (d.withJobs n)

/-- No setting leaves a detector without a tree. -/
theorem Configured.one_le_trees {d : Detector} (h : d.Configured) : 1 ≤ d.trees := by
  induction h with
  | standard => decide
  | withTrees n _ _ => exact Nat.le_max_right n 1
  | withSampleSize _ _ ih => exact ih
  | withContamination _ _ ih => exact ih
  | withSeed _ _ ih => exact ih
  | withJobs _ _ ih => exact ih

end Detector

/-- What the forest of a detector on a matrix is. -/
structure Forest.GrownOn (d : Detector) (x : Matrix Float) (f : Forest) : Prop where
  length : f.trees.length = d.trees
  one_le_length : 1 ≤ f.trees.length
  sampleSize : f.sampleSize = d.sampleSize.resolve x.height
  one_le_sampleSize : 1 ≤ f.sampleSize
  sampleSize_le : f.sampleSize ≤ x.height
  width : f.width = x.width
  trees : ∀ t ∈ f.trees, t.GrownOn x.width f.sampleSize

namespace Detector

section Fits

variable [Elementary]

theorem trees_grown (d : Detector) (chance : UInt64) (x : Matrix Float) :
    (d.grown chance x).trees = (Forest.grow x d.trees (d.sampleSize.resolve x.height)
      d.contamination (d.seed.getD chance)).trees := by
  rw [grown, Forest.calibrate_eq]

theorem sampleSize_grown (d : Detector) (chance : UInt64) (x : Matrix Float) :
    (d.grown chance x).sampleSize = d.sampleSize.resolve x.height := by
  rw [grown, Forest.calibrate_eq]
  rfl

/-- Every tree of a forest is one of a sample of rows. -/
theorem grownOn_of_mem_trees (d : Detector) (chance : UInt64) {x : Matrix Float}
    (hx : 0 < x.height) {t : Tree} (ht : t ∈ (d.grown chance x).trees) :
    t.GrownOn x.width (d.sampleSize.resolve x.height) := by
  rw [trees_grown] at ht
  obtain ⟨seed, -, rfl⟩ := List.mem_map.mp ht
  exact Tree.grownOn_ofSeed (d.sampleSize.resolve_le hx) seed

theorem grownOn_grown {d : Detector} (hd : d.Configured) (chance : UInt64) {x : Matrix Float}
    (hx : 0 < x.height) : (d.grown chance x).GrownOn d x := by
  have hsize := d.sampleSize.resolve_le hx
  have hlength : (d.grown chance x).trees.length = d.trees := by
    rw [trees_grown, Forest.grow, List.length_map, Generator.length_words]
  constructor
  case length => exact hlength
  case one_le_length => rw [hlength]; exact hd.one_le_trees
  case sampleSize => exact d.sampleSize_grown chance x
  case one_le_sampleSize => rw [sampleSize_grown]; exact d.sampleSize.one_le_resolve x.height
  case sampleSize_le => rw [sampleSize_grown]; exact hsize
  case width => exact d.width_grown chance x
  case trees =>
    intro t ht
    rw [sampleSize_grown]
    exact d.grownOn_of_mem_trees chance hx ht

/-- On every matrix with a row the fit of a detector succeeds, whatever the entries are. Its
forest is what the forest of the matrix is meant to be; its trees are those that grow with every
sample, draw and access checked; and it scores each row of any matrix of the same width. -/
theorem fit_grownOn {d : Detector} (hd : d.Configured) (hc : d.contamination.IsNumber)
    (chance : UInt64) {x : Matrix Float} (hx : 0 < x.height) :
    ∃ f, d.fit chance x = .ok { d with model := some f } ∧ f.GrownOn d x ∧
      Forest.trees? x d.trees f.sampleSize (d.seed.getD chance) = some f.trees ∧
      ∀ y : Matrix Float, y.width = x.width →
        ∃ scores, f.score y = .ok scores ∧ scores.length = y.height := by
  refine ⟨d.grown chance x, ?_, grownOn_grown hd chance hx, ?_, fun y hy => ?_⟩
  · rw [fit, fitForest_eq hx.ne' hc]
    rfl
  · rw [sampleSize_grown, trees_grown]
    exact Forest.trees?_eq (d.sampleSize.resolve_le hx) ..
  · have hwidth : y.width = (d.grown chance x).width := hy.trans (d.width_grown chance x).symm
    exact ⟨_, (d.fits_grown chance x).score_eq hwidth, List.length_map ..⟩

end Fits

/-- A forest of one tree, on a sample of no number times the rows, one of which is no number. -/
theorem fit_grownOn_mixedColumn :
    let noNumber : Float := Number.ofNat 0 / Number.ofNat 0
    let d := ((standard.withTrees 0).withSampleSize (.fraction noNumber)).withSeed 7
    ∃ f, d.fit 0 Tree.mixedColumn = .ok { d with model := some f } ∧
      f.trees.length = 1 ∧ f.sampleSize = 1 ∧
      ∃ scores, f.score Tree.mixedColumn = .ok scores ∧ scores.length = 3 := by
  intro noNumber d
  have hd : d.Configured := .withSeed 7 (.withSampleSize _ (.withTrees 0 .standard))
  have hc : d.contamination.IsNumber := by
    show (Number.ofDecimal false 2 (-2)).isNaN = false
    decide +kernel
  obtain ⟨f, hfit, hgrown, -, hscore⟩ :=
    fit_grownOn hd hc 0 (x := Tree.mixedColumn) (by decide)
  have hsize : d.sampleSize.resolve Tree.mixedColumn.height = 1 := by decide +kernel
  exact ⟨f, hfit, hgrown.length, hgrown.sampleSize.trans hsize, hscore _ rfl⟩

end Detector

end LoginForest
