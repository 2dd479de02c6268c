/-
  A fitted forest and its scores. A row scores `2 ^ (-mean path / expected path)`, which is
  high when few splits set the row apart; scores above the threshold are flagged.
-/
import LoginForest.Error
import LoginForest.Forest.Parameters
import LoginForest.Forest.Tree
import LoginForest.Matrix

namespace LoginForest

/-- The expected path, or one where trees of single rows make it zero. -/
def pathUnit [Analytic α] (expected : α) : α :=
  if Scalar.less (Scalar.count 0) expected then expected else Scalar.count 1

/-- The score of a row by its path in each tree. -/
def isolationScore [Analytic α] (expected : α) (paths : List α) : α :=
  let mean := paths.foldl (· + ·) (Scalar.count 0) / Scalar.count paths.length
  Analytic.twoToThe (-mean / pathUnit expected)

structure Forest where
  trees : List Tree
  width : Nat
  sampleSize : Nat
  expectedPathLength : Float
  contamination : Contamination
  threshold : Float
deriving BEq, Repr

namespace Forest

def scoreRow [Elementary] (f : Forest) (row : List Float) : Float :=
  isolationScore f.expectedPathLength (f.trees.map (·.pathLength row))

/-- Whether all trees admit all rows. -/
def admits (f : Forest) (x : Matrix Float) : Bool :=
  x.rows.all fun row => f.trees.all fun t => t.admits row

/-- A score for every row. A row that is asked for a feature that it does not have ends the
program. -/
def score [Elementary] (f : Forest) (x : Matrix Float) : Except Error (List Float) :=
  if x.width = f.width then
    if f.admits x then .ok (x.rows.map f.scoreRow) else .error .outOfRange
  else .error (.columns f.width x.width)

/-- Flags for scores. -/
def flag (f : Forest) (scores : List Float) : List Bool := scores.map fun s => f.threshold < s

@[simp] theorem length_flag (f : Forest) (scores : List Float) :
    (f.flag scores).length = scores.length :=
  List.length_map _

/-- A flag for every row. -/
def predict [Elementary] (f : Forest) (x : Matrix Float) : Except Error (List Bool) :=
  (f.score x).map f.flag

end Forest

end LoginForest
