/-
  What a command needs of its surroundings: to find and to store files and to print. Commands
  are written for any host; `Session` is the one that keeps its files and its output as values.
-/
import LoginForest.Attempt.Format
import LoginForest.Text.Bytes

namespace LoginForest.Command

/-- What a path leads to. -/
inductive Found where
  | file (content : Bytes)
  | nothing
  /-- something that is no file -/
  | other
deriving DecidableEq, Repr

def Found.content? : Found → Option Bytes
  | .file b => some b
  | _ => none

class Host (m : Type → Type) where
  find : (path : String) → m Found
  /-- whether the file could be stored -/
  store : (path : String) → Bytes → m Bool
  print : String → m Unit

/-- Files of one folder by their names. -/
structure Folder where
  files : List (String × Bytes)
deriving DecidableEq, Repr

/-- Where a path leads from a folder that holds no other folder. -/
inductive Place where
  | file (name : String)
  | folder
  | outside
deriving DecidableEq, Repr

/-- Bytes that the name of a file may have. -/
def nameLimit : Nat := 255

/-- Bytes that a path may have. -/
def pathLimit : Nat := 4095

/-- Points and doubled slashes do not matter in front of a name. A path that is too long, holds
a name that is too long or a zero character leads nowhere. -/
def Place.ofPath (path : String) : Place :=
  let cs := path.toList
  let steps := (Format.segments cs).filter fun s => s ≠ [] ∧ s ≠ ['.']
  if pathLimit < path.utf8ByteSize ∨ '\x00' ∈ cs then .outside
  else if steps.all (· = ['.', '.']) then .folder
  else match steps with
    | [name] =>
      if cs.head? = some '/' ∨ (Format.segments cs).getLast? ≠ some name ∨
          nameLimit < (String.ofList name).utf8ByteSize then .outside
      else .file (String.ofList name)
    | _ => .outside

namespace Folder

def get? (f : Folder) (name : String) : Option Bytes := f.files.lookup name

/-- Put a file in the place of the one with its name, or behind the others. -/
def put (name : String) (content : Bytes) (f : Folder) : Folder :=
  ⟨if (f.files.lookup name).isSome then
      f.files.map fun (n, b) => if n = name then (n, content) else (n, b)
    else f.files ++ [(name, content)]⟩

def find (path : String) (f : Folder) : Found :=
  match Place.ofPath path with
  | .file name =>
    match f.get? name with
    | some b => .file b
    | none => .nothing
  | .folder => .other
  | .outside => .nothing

def store? (path : String) (content : Bytes) (f : Folder) : Option Folder :=
  match Place.ofPath path with
  | .file name => some (f.put name content)
  | _ => none

end Folder

/-- A folder and what was printed. -/
structure World where
  folder : Folder
  printed : String

abbrev Session := StateM World

instance : Host Session where
  find path := do return (← get).folder.find path
  store path content := do
    match (← get).folder.store? path content with
    | some folder =>
      modify fun w => { w with folder }
      return true
    | none => return false
  print s := modify fun w => { w with printed := w.printed ++ s }

end LoginForest.Command
