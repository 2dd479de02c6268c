/-
  What is kept of a run to score again later: the scaling, the forest and where they are from.
-/
import LoginForest.Features
import LoginForest.Scaler
import LoginForest.Scoring.Scored
import LoginForest.Settings

namespace LoginForest

/-- When and how a bundle was trained. The time is kept in UTC. -/
structure Provenance where
  trainedAt : Time.Timestamp
  columns : List String
  trainingRows : Nat
  trees : Nat
  seed : Option UInt64
  contamination : Contamination
  version : String
  trainedAt_utc : trainedAt.offset = .utc
deriving BEq, Repr

def programVersion : String := "0.1.0"

def Provenance.ofSettings (s : Settings) (rows : Nat) (now : Time.Timestamp) : Provenance where
  trainedAt := now.toUtc
  columns := featureNames
  trainingRows := rows
  trees := s.trees
  seed := s.seed
  contamination := s.contamination
  version := programVersion
  trainedAt_utc := now.offset_toUtc

structure Bundle where
  provenance : Provenance
  scaling : Scaling Float
  forest : Forest
deriving BEq, Repr

namespace Bundle

/-- Scores and flags of a feature matrix that is not scaled yet. -/
def scoreMatrix [Elementary] (b : Bundle) (x : Matrix Float) :
    Except Error (List Float × List Bool) := do
  let scores ← b.forest.score (← b.scaling.transform x)
  return (scores, b.forest.flag scores)

/-- Score attempts, keeping their order. -/
def scoreAttempts [Elementary] (b : Bundle) (attempts : List Attempt) :
    Except Error (List Scored) :=
  if attempts.isEmpty then .error (.empty .rescore)
  else do
    let (scores, flags) ← b.scoreMatrix (Features.ofAttempts attempts).matrix
    return Scored.zip attempts scores flags

end Bundle

end LoginForest
