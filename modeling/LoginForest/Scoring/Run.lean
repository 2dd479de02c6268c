/-
  A run: train on the trusted attempts, score all. Training and scored attempts are encoded
  each by themselves; the scaling and the forest come from the training attempts alone.
-/
import LoginForest.Bundle.Basic

namespace LoginForest

/-- What a run takes from outside: the time, and a word for a forest without a seed. -/
structure Occasion where
  now : Time.Timestamp
  chance : UInt64

structure Summary where
  records : Nat
  training : Nat
  flagged : Nat
  threshold : Float

structure Outcome where
  /-- in the order of the attempts -/
  scored : List Scored
  bundle : Bundle
  /-- whether all attempts were trained on because none is trusted -/
  fallback : Bool
  summary : Summary

namespace Outcome

/-- The scores in the order of the attempts. -/
def scores (o : Outcome) : List Float := o.scored.map (·.score)

/-- The flags in the order of the attempts. -/
def flags (o : Outcome) : List Bool := o.scored.map (·.flagged)

/-- The `n` highest scores. -/
def top (n : Nat) (o : Outcome) : List Scored := (Scored.ranked o.scored).take n

def flagged (o : Outcome) : List Scored := o.scored.filter (·.flagged)

end Outcome

namespace Settings

/-- Fit the scaling to a feature matrix, and the forest to the scaled matrix. -/
def fit [Elementary] (s : Settings) (occasion : Occasion) (x : Matrix Float) :
    Except Error (Scaler × Detector) := do
  let scaler ← Scaler.standard.fit x
  let detector ← s.detector.fit occasion.chance (← scaler.transform x)
  return (scaler, detector)

/-- The bundle of what was fitted to `rows` rows. -/
def bundle (s : Settings) (occasion : Occasion) (rows : Nat) (scaler : Scaler)
    (detector : Detector) : Except Error Bundle := do
  let scaling ← scaler.release
  let forest ← detector.fitted
  return { provenance := .ofSettings s rows occasion.now, scaling, forest }

/-- The bundle of a feature matrix. -/
def train [Elementary] (s : Settings) (occasion : Occasion) (x : Matrix Float) :
    Except Error Bundle := do
  let (scaler, detector) ← s.fit occasion x
  s.bundle occasion x.height scaler detector

/-- Train on `trusted`, or on `all` if it is empty, and score `all`. -/
def run [Elementary] (s : Settings) (occasion : Occasion) (trusted all : List Attempt) :
    Except Error Outcome :=
  if all.isEmpty then .error (.empty .score)
  else do
    s.check
    let training := if trusted.isEmpty then all else trusted
    let (scaler, detector) ← s.fit occasion (Features.ofAttempts training).matrix
    let detection ← detector.detect (← scaler.transform (Features.ofAttempts all).matrix)
    return {
      scored := Scored.zip all detection.scores detection.flags
      bundle := ← s.bundle occasion training.length scaler detector
      fallback := trusted.isEmpty
      summary :=
        { records := all.length
          training := training.length
          flagged := detection.flagged
          threshold := detection.threshold } }

/-- Train on the trusted attempts of a history and score all of them. -/
def runHistory [Elementary] (s : Settings) (occasion : Occasion) (h : History) :
    Except Error Outcome :=
  if h.attempts.isEmpty then .error (.empty .score) else s.run occasion h.trusted h.attempts

end Settings

end LoginForest
