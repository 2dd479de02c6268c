/-
  Which seed a tree grows from. The seeds of the trees are the words of one stream, and each tree
  has a generator of its own, so that a tree is known from the word at its place
  (`getElem?_trees_grown`), however many words the other trees draw. Forests that sample alike
  have equal trees wherever their streams have equal words, and of one seed the smaller forest is
  the front of the larger one (`fitForest_trees`).
-/
import LoginForest.Proofs.Forest.WellFormed

namespace LoginForest

open LoginForest.Random (Generator)

namespace Random.Generator

/-- The state after `n` words. -/
def after : Nat → Generator → Generator
  | 0, g => g
  | n + 1, g => after n g.next.2

/-- The word at a place in the stream of a seed, the first one at zero. -/
def wordAt (seed : UInt64) (i : Nat) : UInt64 := ((ofSeed seed).after i).next.1

theorem getElem?_words {n i : Nat} (h : i < n) (g : Generator) :
    (words n g)[i]? = some (g.after i).next.1 := by
  induction n generalizing i g with
  | zero => omega
  | succ n ih =>
    cases i with
    | zero => rfl
    | succ i =>
      rw [words, List.getElem?_cons_succ]
      exact ih (Nat.lt_of_succ_lt_succ h) g.next.2

end Random.Generator

namespace Detector

section Streams

variable [Elementary]

theorem trees_grown_eq (d : Detector) (chance : UInt64) (x : Matrix Float) :
    (d.grown chance x).trees = (Generator.words d.trees (.ofSeed (d.seed.getD chance))).map
      (Tree.ofSeed x (d.sampleSize.resolve x.height)) :=
  d.trees_grown chance x

theorem length_trees_grown (d : Detector) (chance : UInt64) (x : Matrix Float) :
    (d.grown chance x).trees.length = d.trees := by
  rw [trees_grown_eq, List.length_map, Generator.length_words]

/-- The tree at a place is the one of the word at this place. -/
theorem getElem?_trees_grown {d : Detector} {i : Nat} (h : i < d.trees) (chance : UInt64)
    (x : Matrix Float) : (d.grown chance x).trees[i]? = some (Tree.ofSeed x
      (d.sampleSize.resolve x.height) (Generator.wordAt (d.seed.getD chance) i)) := by
  rw [trees_grown_eq, List.getElem?_map, Generator.getElem?_words h]
  rfl

theorem trees_grown_prefix {d d' : Detector} {chance chance' : UInt64}
    (hseed : d.seed.getD chance = d'.seed.getD chance') (hsize : d.sampleSize = d'.sampleSize)
    (htrees : d.trees ≤ d'.trees) (x : Matrix Float) :
    (d.grown chance x).trees <+: (d'.grown chance' x).trees := by
  rw [trees_grown_eq, trees_grown_eq, hseed, hsize, ← Generator.words_take htrees]
  exact (List.take_prefix _ _).map _

theorem expectedPathLength_grown (d : Detector) (chance : UInt64) (x : Matrix Float) :
    (d.grown chance x).expectedPathLength =
      averagePathLength (d.sampleSize.resolve x.height) := by
  rw [grown, Forest.calibrate_eq]
  rfl

/-- Two detectors that sample alike give forests that differ in their trees, contaminations and
thresholds at most. Places where their streams have the same word have the same tree, whatever
the other trees are; and of one seed the forest with fewer trees is the front of the other one. -/
theorem fitForest_trees {d d' : Detector} {seed seed' : UInt64} (hseed : d.seed = some seed)
    (hseed' : d'.seed = some seed') (hsize : d.sampleSize = d'.sampleSize)
    (hc : d.contamination.IsNumber) (hc' : d'.contamination.IsNumber) (chance chance' : UInt64)
    {x : Matrix Float} (hx : 0 < x.height) :
    ∃ f f', d.fitForest chance x = .ok f ∧ d'.fitForest chance' x = .ok f' ∧
      f.trees.length = d.trees ∧ f'.trees.length = d'.trees ∧ f.width = f'.width ∧
      f.sampleSize = f'.sampleSize ∧ f.expectedPathLength = f'.expectedPathLength ∧
      (∀ i < d.trees, ∀ j < d'.trees, Generator.wordAt seed i = Generator.wordAt seed' j →
        f.trees[i]? = f'.trees[j]?) ∧
      (seed = seed' → d.trees ≤ d'.trees → f.trees <+: f'.trees) := by
  refine ⟨d.grown chance x, d'.grown chance' x, fitForest_eq hx.ne' hc, fitForest_eq hx.ne' hc',
    d.length_trees_grown chance x, d'.length_trees_grown chance' x, ?_, ?_, ?_, ?_, ?_⟩
  · rw [width_grown, width_grown]
  · rw [sampleSize_grown, sampleSize_grown, hsize]
  · rw [expectedPathLength_grown, expectedPathLength_grown, hsize]
  · intro i hi j hj hword
    rw [getElem?_trees_grown hi, getElem?_trees_grown hj, hseed, hseed', hsize]
    exact congrArg (fun word => some (Tree.ofSeed x _ word)) hword
  · rintro rfl htrees
    exact trees_grown_prefix (by rw [hseed, hseed', Option.getD_some, Option.getD_some]) hsize
      htrees x

end Streams

/-- Two trees with a share of anomalies, and five without one on three threads. -/
theorem fitForest_trees_mixedColumn :
    let d := (standard.withTrees 2).withSeed 7
    let d' := (((standard.withTrees 5).withContamination .auto).withJobs 3).withSeed 7
    ∃ f f', d.fitForest 0 Tree.mixedColumn = .ok f ∧ d'.fitForest 1 Tree.mixedColumn = .ok f' ∧
      f.trees.length = 2 ∧ f'.trees.length = 5 ∧ f.trees <+: f'.trees ∧
      f.trees[1]? = f'.trees[1]? := by
  intro d d'
  have hc : d.contamination.IsNumber := by
    show (Number.ofDecimal false 2 (-2)).isNaN = false
    decide +kernel
  have hc' : d'.contamination.IsNumber := trivial
  obtain ⟨f, f', hf, hf', hlength, hlength', -, -, -, hplace, hfront⟩ :=
    fitForest_trees (show d.seed = some 7 from rfl) (show d'.seed = some 7 from rfl) rfl hc hc' 0 1
      (x := Tree.mixedColumn) (by decide)
  exact ⟨f, f', hf, hf', hlength, hlength', hfront rfl (by decide),
    hplace 1 (by decide) 1 (by decide) rfl⟩

end Detector

end LoginForest
