/-
  The two commands. Files are read before anything is computed, and outputs are written after
  all is computed: report, timeline, model.
-/
import LoginForest.Bundle.Json
import LoginForest.Command.Arguments
import LoginForest.Command.Host
import LoginForest.Command.Layout
import LoginForest.Scoring.Report
import LoginForest.Scoring.Run

namespace LoginForest.Command

variable {m : Type → Type} [Monad m] [Host m]

/-- A step of a command; it may fail and end the command. -/
abbrev Action (m : Type → Type) := ExceptT Error m

def say (s : String) : Action m Unit := ExceptT.lift (Host.print s)

def sayLines (lines : List String) : Action m Unit := say (String.join (lines.map (· ++ "\n")))

/-- A pure result inside a command. -/
def result (e : Except Error α) : Action m α := ExceptT.mk (pure e)

def find (path : String) : Action m Found := ExceptT.lift (Host.find path)

/-- Announce a step, do it and tell its end. -/
def announce (what : String) (detail : α → String) (action : Action m α) : Action m α := do
  say (Layout.step what)
  let a ← action
  sayLines [Layout.finished (detail a)]
  return a

def recordCount (attempts : List Attempt) : String := decimalText attempts.length ++ " records"

def loadAttempts (path : String) : Action m (List Attempt) := do
  let found ← find path
  result (load .lenient (.ofPath path) found.content?)

def loadSettings (path : Option String) : Action m Settings := do
  match path with
  | none => return .standard
  | some path =>
    let found ← find path
    result (Settings.ofFile path found.content?)

def loadBundle (path : String) : Action m Bundle := do
  match ← find path with
  | .file b => result (Bundle.load (some b))
  | .nothing => result (Bundle.load none)
  | .other => result (.error .malformed)

/-- Write a file and say so, if it is asked for. -/
def store (what : String) (path : Option String) (content : Unit → Bytes) : Action m Unit := do
  match path with
  | none => return
  | some path =>
    if ← ExceptT.lift (Host.store path (content ())) then
      sayLines [Layout.success (what ++ " → " ++ path)]
    else result (.error .file)

/-- Load the attempts, and the trusted ones if there is a file of them. -/
def ScoreOptions.loadHistory (o : ScoreOptions) (policy : TrustPolicy) : Action m History := do
  let attempts ← announce "Loading login attempts" recordCount (loadAttempts o.data)
  let history := (History.ofAttempts attempts).withPolicy policy
  match o.trusted with
  | none => return history
  | some path =>
    let trusted ← announce "Loading trusted set" recordCount (loadAttempts path)
    return history.withTrusted trusted

/-- Train on the trusted attempts and score all. -/
def ScoreOptions.run [Elementary] (occasion : Occasion) (o : ScoreOptions) : Action m Unit := do
  sayLines (Layout.heading "Score")
  let settings := o.overrides.apply (← loadSettings o.config)
  result settings.check
  let history ← o.loadHistory settings.trust
  let outcome ← announce ("Training " ++ decimalText settings.trees ++ " trees") (fun _ => "")
    (result (settings.runHistory occasion history))
  sayLines (Layout.fallback outcome.fallback)
  let summary := outcome.summary
  sayLines (Layout.summary summary.records (some summary.training) summary.flagged
    summary.threshold)
  sayLines (Layout.table (outcome.top settings.top))
  store "Report" o.output fun _ => Report.commaSeparated (Scored.ranked outcome.scored)
  store "Timeline" o.timeline fun _ => Report.commaSeparated (Scored.timeOrdered outcome.scored)
  store "Model" o.model fun _ => Bytes.ofText outcome.bundle.toJson
  sayLines [""]

/-- What is said of a bundle that was loaded. -/
def bundleDetail (b : Bundle) : String :=
  decimalText b.forest.trees.length ++ " trees, trained " ++ b.provenance.trainedAt.minuteText

/-- Score with a bundle. -/
def RescoreOptions.run [Elementary] (o : RescoreOptions) : Action m Unit := do
  sayLines (Layout.heading "Rescore")
  let bundle ← announce "Loading model bundle" bundleDetail (loadBundle o.model)
  let attempts ← announce "Loading login attempts" recordCount (loadAttempts o.data)
  let scored ← announce "Scoring" (fun _ => "")
    (result (bundle.scoreAttempts (inTimeOrder attempts)))
  sayLines (Layout.summary scored.length none (scored.countP (·.flagged))
    bundle.forest.threshold)
  let ranked := Scored.ranked scored
  sayLines (Layout.table (ranked.take o.top))
  store "Report" o.output fun _ => Report.commaSeparated ranked
  store "Timeline" o.timeline fun _ => Report.commaSeparated scored
  sayLines [""]

def run [Elementary] (occasion : Occasion) : Command → Action m Unit
  | .score o => o.run occasion
  | .rescore o => o.run

/-- The command in a folder: how it ends, and the folder and the output afterwards. -/
def inFolder [Elementary] (occasion : Occasion) (c : Command) (folder : Folder) :
    Except Error Unit × World :=
  (c.run occasion : Action Session Unit).run.run ⟨folder, ""⟩

end LoginForest.Command
