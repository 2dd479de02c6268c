/-
  The arguments of the two commands. Every option takes one value, given in the next argument
  or behind it, and may be given once.
-/
import LoginForest.Number.Reading
import LoginForest.Settings

namespace LoginForest.Command

/-- An option by its name, and by a letter if it has one. -/
structure Flag where
  name : String
  letter : Option Char

/-- Values by the names of their options. -/
abbrev Given := List (String × String)

/-- Characters behind an equals sign. -/
def behindEquals? : List Char → Option String
  | '=' :: cs => some (String.ofList cs)
  | _ => none

/-- The option that an argument names, and the value if the argument holds it: `--name`,
`--name=value`, `-n`, `-nvalue` or `-n=value`. -/
def split? (flags : List Flag) (arg : String) : Option (Flag × Option String) :=
  match arg.toList with
  | '-' :: '-' :: cs =>
    let name := cs.takeWhile (· != '=')
    (flags.find? fun f => f.name.toList = name).map fun f =>
      (f, behindEquals? (cs.drop name.length))
  | '-' :: letter :: cs =>
    (flags.find? fun f => f.letter = some letter).map fun f =>
      (f, if cs.isEmpty then none else some ((behindEquals? cs).getD (String.ofList cs)))
  | _ => none

/-- Whether an argument cannot be the value of the option before it. -/
def startsOption (arg : String) : Bool := arg.startsWith "-" && arg != "-"

/-- Keep a value; `none` when the option has one already. -/
def give? (name value : String) (given : Given) : Option Given :=
  if (given.lookup name).isSome then none else some ((name, value) :: given)

/-- Options and values; nothing may follow two hyphens. -/
def given? (flags : List Flag) : List String → Given → Option Given
  | [], given => some given
  | ["--"], given => some given
  | [arg], given =>
    match split? flags arg with
    | some (f, some value) => give? f.name value given
    | _ => none
  | arg :: next :: rest, given =>
    match split? flags arg with
    | some (f, some value) => (give? f.name value given).bind (given? flags (next :: rest))
    | some (f, none) =>
      if startsOption next then none else (give? f.name next given).bind (given? flags rest)
    | none => none

/-- A value that may be absent but not unreadable. -/
def optional? (given : Given) (name : String) (read : String → Option α) : Option (Option α) :=
  match given.lookup name with
  | none => some none
  | some value => (read value).map some

/-- A path is not empty. -/
def path? (value : String) : Option String := if value.isEmpty then none else some value

/-- A whole number of 64 bits. -/
def count? (value : String) : Option Nat := (Number.count? value).filter (· < Number.twoTo 64)

def seed? (value : String) : Option UInt64 := (count? value).map UInt64.ofNat

/-- The arguments of `score`. -/
structure ScoreOptions where
  data : String
  trusted : Option String
  config : Option String
  overrides : Overrides
  output : Option String
  timeline : Option String
  model : Option String

/-- The arguments of `rescore`. -/
structure RescoreOptions where
  model : String
  data : String
  output : Option String
  timeline : Option String
  top : Nat

end Command

inductive Command where
  | score (o : Command.ScoreOptions)
  | rescore (o : Command.RescoreOptions)

namespace Command

def scoreFlags : List Flag :=
  [⟨"data", some 'd'⟩, ⟨"trusted", none⟩, ⟨"config", some 'c'⟩, ⟨"trees", none⟩,
    ⟨"contamination", none⟩, ⟨"seed", none⟩, ⟨"jobs", none⟩, ⟨"top", none⟩,
    ⟨"output", some 'o'⟩, ⟨"timeline", none⟩, ⟨"model-out", none⟩]

def rescoreFlags : List Flag :=
  [⟨"model", some 'm'⟩, ⟨"data", some 'd'⟩, ⟨"output", some 'o'⟩, ⟨"timeline", none⟩,
    ⟨"top", none⟩]

def overrides? (given : Given) : Option Overrides := do
  return {
    trees := ← optional? given "trees" count?
    contamination := ← optional? given "contamination" Number.read?
    seed := ← optional? given "seed" seed?
    jobs := ← optional? given "jobs" count?
    top := ← optional? given "top" count? }

def scoreOptions? (given : Given) : Option ScoreOptions := do
  return {
    data := ← (given.lookup "data").bind path?
    trusted := ← optional? given "trusted" path?
    config := ← optional? given "config" path?
    overrides := ← overrides? given
    output := ← optional? given "output" path?
    timeline := ← optional? given "timeline" path?
    model := ← optional? given "model-out" path? }

/-- Rows of the ranked table when nothing is said. -/
def standardTop : Nat := 20

def rescoreOptions? (given : Given) : Option RescoreOptions := do
  let top ← optional? given "top" count?
  return {
    model := ← (given.lookup "model").bind path?
    data := ← (given.lookup "data").bind path?
    output := ← optional? given "output" path?
    timeline := ← optional? given "timeline" path?
    top := top.getD standardTop }

/-- The command that the arguments spell; `none` when they spell none. -/
def ofArguments? : List String → Option Command
  | "score" :: args => ((given? scoreFlags args []).bind scoreOptions?).map .score
  | "rescore" :: args => ((given? rescoreFlags args []).bind rescoreOptions?).map .rescore
  | _ => none

end Command

end LoginForest
