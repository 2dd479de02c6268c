/-
  Scored login attempts, ranked by score or in time order.
-/
import LoginForest.Attempt.Basic
import LoginForest.Number.Binary64

namespace LoginForest

structure Scored where
  attempt : Attempt
  score : Float
  flagged : Bool

namespace Scored

/-- Attempts with their scores and flags, matched in order. -/
def zip (attempts : List Attempt) (scores : List Float) (flags : List Bool) : List Scored :=
  List.zipWith (fun a (s : Float × Bool) => ⟨a, s.1, s.2⟩) attempts (scores.zip flags)

/-- Highest score first; equal scores keep their order. -/
def ranked (rows : List Scored) : List Scored :=
  rows.mergeSort fun a b => Number.place b.score ≤ Number.place a.score

/-- Earliest instant first; attempts at one instant keep their order. -/
def timeOrdered (rows : List Scored) : List Scored :=
  rows.mergeSort fun a b => a.attempt.time.notAfter b.attempt.time

end Scored

end LoginForest
