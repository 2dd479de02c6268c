/-
  The settings of a run, from a file or by default, and what may be changed on top of them.
-/
import LoginForest.Attempt.Load
import LoginForest.Forest.Detector
import LoginForest.Trust

namespace LoginForest

open Json (Node)

structure Settings where
  trees : Nat
  sampleSize : SampleSize
  contamination : Contamination
  seed : Option UInt64
  jobs : Option Nat
  /-- rows of the ranked table -/
  top : Nat
  trust : TrustPolicy
deriving BEq, Repr

namespace Settings

def standard : Settings where
  trees := 300
  sampleSize := .auto
  contamination := .fraction (Number.ofDecimal false 2 (-2))
  seed := some 42
  jobs := none
  top := 20
  trust := .standard

/-- Fields that are absent keep their standard values. -/
def ofNode? (n : Node) : Option Settings := do
  let fields ← n.fields? true
    ["n_estimators", "max_samples", "contamination", "random_state", "n_jobs", "top_n", "trust"]
  let s := standard
  return {
    trees := ← fields.default? "n_estimators" s.trees Node.count?
    sampleSize := ← fields.default? "max_samples" s.sampleSize SampleSize.ofNode?
    contamination := ← fields.default? "contamination" s.contamination Contamination.ofNode?
    seed := ← fields.default? "random_state" s.seed (Node.optional? Node.word?)
    jobs := ← fields.default? "n_jobs" s.jobs (Node.optional? Node.count?)
    top := ← fields.default? "top_n" s.top Node.count?
    trust := ← fields.default? "trust" s.trust TrustPolicy.ofNode? }

/-- Whether `x` is above zero and at most `limit`. -/
def isShare (x limit : Float) : Bool := Number.ofNat 0 < x && x ≤ limit

/-- What is wrong with the first setting that a forest cannot be grown with. -/
def problem? (s : Settings) : Option BadParameter :=
  let shareProblem := match s.contamination with
    | .auto => none
    | .fraction c => if isShare c half then none else some (.contamination c)
  let sampleProblem := match s.sampleSize with
    | .auto => none
    | .count n => if n = 0 then some .sampleCount else none
    | .fraction f => if isShare f (Number.ofNat 1) then none else some (.sampleFraction f)
  (if s.trees = 0 then some .trees else none) <|> shareProblem <|> sampleProblem <|>
    (if s.jobs = some 0 then some .jobs else none)

/-- Refuse settings that a forest cannot be grown with. -/
def check (s : Settings) : Except Error Unit :=
  match s.problem? with
  | some p => .error (.parameter p)
  | none => .ok ()

/-- The settings in the content of the file at `path`; `none` when it cannot be read. -/
def ofFile (path : String) (content : Option Bytes) : Except Error Settings :=
  match content.bind Bytes.text? with
  | none => .error (.unreadableSettings path)
  | some text =>
    match (Json.parse? text).bind ofNode? with
    | none => .error (.invalidSettings path)
    | some s => do
      s.check
      return s

/-- The unfitted detector with these settings. -/
def detector (s : Settings) : Detector :=
  let d := ((Detector.standard.withTrees s.trees).withSampleSize s.sampleSize).withContamination
    s.contamination
  let d := match s.seed with
    | some seed => d.withSeed seed
    | none => d
  match s.jobs with
  | some n => d.withJobs n
  | none => d

end Settings

/-- Settings given for one run. -/
structure Overrides where
  trees : Option Nat
  contamination : Option Float
  seed : Option UInt64
  jobs : Option Nat
  top : Option Nat

/-- Put what is given in the place of the settings. -/
def Overrides.apply (o : Overrides) (s : Settings) : Settings :=
  { s with
    trees := o.trees.getD s.trees
    contamination := (o.contamination.map Contamination.fraction).getD s.contamination
    seed := o.seed <|> s.seed
    jobs := o.jobs <|> s.jobs
    top := o.top.getD s.top }

end LoginForest
