/-
  The detector: the settings of a forest, and the forest once it is fitted. Every tree has a
  seed of its own from the seed of the detector, so trees do not disturb one another.
-/
import LoginForest.Forest.Json
import LoginForest.Random.Sample
import LoginForest.Stats.Quantile

namespace LoginForest

/-- The least whole number that is no less than the binary logarithm of `n`. -/
def ceilLog2 (n : Nat) : Nat := if n ≤ 1 then 0 else (n - 1).log2 + 1

/-- The tree of a seed: the generator draws the sample first and then the splits. -/
def Tree.ofSeed (x : Matrix Float) (sampleSize : Nat) (seed : UInt64) : Tree :=
  let (indices, g) := Random.sample x.height sampleSize (.ofSeed seed)
  (build x indices 0 (ceilLog2 sampleSize) g).1

/-- The forest of a seed, with a threshold of one half. -/
def Forest.grow [Elementary] (x : Matrix Float) (trees sampleSize : Nat)
    (contamination : Contamination) (seed : UInt64) : Forest where
  trees := (Random.Generator.words trees (.ofSeed seed)).map (Tree.ofSeed x sampleSize)
  width := x.width
  sampleSize := sampleSize
  expectedPathLength := averagePathLength sampleSize
  contamination := contamination
  threshold := half

/-- The threshold that leaves a fraction `c` of the scores above it. -/
def contaminationThreshold [Scalar α] (scores : List α) (c : α) : α :=
  (quantile scores (Scalar.count 1 - c)).getD half

/-- The forest with the threshold that its contamination asks for, by its scores on `x`. -/
def Forest.calibrate [Elementary] (f : Forest) (x : Matrix Float) : Forest :=
  match f.contamination with
  | .auto => f
  | .fraction c => { f with threshold := contaminationThreshold (x.rows.map f.scoreRow) c }

structure Detector where
  trees : Nat
  sampleSize : SampleSize
  contamination : Contamination
  seed : Option UInt64
  jobs : Option Nat
  model : Option Forest
deriving BEq, Repr

/-- Scores and flags of a matrix. -/
structure Detection where
  scores : List Float
  flags : List Bool
  threshold : Float
  flagged : Nat

namespace Detector

def standard : Detector where
  trees := 300
  sampleSize := .auto
  contamination := .fraction (Number.ofDecimal false 2 (-2))
  seed := none
  jobs := none
  model := none

def withTrees (n : Nat) (d : Detector) : Detector := { d with trees := max n 1 }

def withSampleSize (s : SampleSize) (d : Detector) : Detector := { d with sampleSize := s }

def withContamination (c : Contamination) (d : Detector) : Detector :=
  { d with contamination := c.held }

def withSeed (seed : UInt64) (d : Detector) : Detector := { d with seed := some seed }

def withJobs (n : Nat) (d : Detector) : Detector := { d with jobs := some (max n 1) }

/-- The forest of a matrix. A detector without a seed takes `chance` for one. -/
def grown [Elementary] (d : Detector) (chance : UInt64) (x : Matrix Float) : Forest :=
  (Forest.grow x d.trees (d.sampleSize.resolve x.height) d.contamination
    (d.seed.getD chance)).calibrate x

/-- The forest fitted to a matrix that has a row. -/
def fitForest [Elementary] (d : Detector) (chance : UInt64) (x : Matrix Float) :
    Except Error Forest :=
  if x.height = 0 then .error (.empty .fitForest)
  else match d.contamination with
    | .fraction c =>
      if c.isNaN then .error (.parameter (.contamination c)) else .ok (d.grown chance x)
    | .auto => .ok (d.grown chance x)

def fit [Elementary] (d : Detector) (chance : UInt64) (x : Matrix Float) :
    Except Error Detector :=
  (d.fitForest chance x).map fun f => { d with model := some f }

/-- The fitted forest. -/
def fitted (d : Detector) : Except Error Forest :=
  match d.model with
  | some f => .ok f
  | none => .error (.unfitted .forest)

def score [Elementary] (d : Detector) (x : Matrix Float) : Except Error (List Float) := do
  (← d.fitted).score x

def predict [Elementary] (d : Detector) (x : Matrix Float) : Except Error (List Bool) := do
  let f ← d.fitted
  return f.flag (← d.score x)

def threshold (d : Detector) : Except Error Float := d.fitted.map (·.threshold)

def detect [Elementary] (d : Detector) (x : Matrix Float) : Except Error Detection := do
  let scores ← d.score x
  let threshold ← d.threshold
  let flags := scores.map fun s => decide (threshold < s)
  return { scores, flags, threshold, flagged := flags.countP id }

/-- What can be asked of a detector. -/
inductive Request where
  | fit (x : Matrix Float)
  | fitPredict (x : Matrix Float)
  | score (x : Matrix Float)
  | predict (x : Matrix Float)
  | detect (x : Matrix Float)
  | threshold
  | fitted
  | release

inductive Reply where
  | scores (s : List Float)
  | flags (f : List Bool)
  | detection (d : Detection)
  | threshold (t : Float)
  | forest (f : Forest)

/-- Answer a request. The second part is the detector afterwards, the same one after an error;
`none` once it is released. -/
def answer [Elementary] (chance : UInt64) (d : Detector) :
    Request → Except Error Reply × Option Detector
  | .fit x =>
    match d.fit chance x with
    | .ok d' => (d'.fitted.map .forest, some d')
    | .error e => (.error e, some d)
  | .fitPredict x =>
    match d.fit chance x with
    | .ok d' => ((d'.predict x).map .flags, some d')
    | .error e => (.error e, some d)
  | .score x => ((d.score x).map .scores, some d)
  | .predict x => ((d.predict x).map .flags, some d)
  | .detect x => ((d.detect x).map .detection, some d)
  | .threshold => (d.threshold.map .threshold, some d)
  | .fitted => (d.fitted.map .forest, some d)
  | .release => (d.fitted.map .forest, none)

open Json (Node Value)

def toValue (d : Detector) : Value :=
  .record [
    ("n_estimators", .count d.trees),
    ("max_samples", d.sampleSize.toValue),
    ("contamination", d.contamination.toValue),
    ("seed", .optional .word d.seed),
    ("parallel", .record [("n_threads", .optional .count d.jobs)]),
    ("model", .optional Forest.toValue d.model)]

def jobsOfNode? (n : Node) : Option (Option Nat) := do
  (← n.fields? false ["n_threads"]).optional? "n_threads" Node.count?

def ofNode? (n : Node) : Option Detector := do
  let fields ← n.fields? false
    ["n_estimators", "max_samples", "contamination", "seed", "parallel", "model"]
  return {
    trees := ← fields.required? "n_estimators" Node.count?
    sampleSize := ← fields.required? "max_samples" SampleSize.ofNode?
    contamination := ← fields.required? "contamination" Contamination.ofNode?
    seed := ← fields.optional? "seed" Node.word?
    jobs := ← fields.required? "parallel" jobsOfNode?
    model := ← fields.optional? "model" Forest.ofNode? }

def toJson (d : Detector) : String := d.toValue.compact

def ofJson (s : String) : Except Error Detector :=
  match (Json.parse? s).bind ofNode? with
  | some d => .ok d
  | none => .error .malformed

end Detector

end LoginForest
