/-
  The formats of an export, told by the extension of the file's name.
-/
import LoginForest.Text.Blank

namespace LoginForest

inductive Format where
  | commaSeparated
  | tabSeparated
  | jsonLines
deriving DecidableEq, Repr

namespace Format

/-- Characters up to the next slash, and the segments after it. -/
def segments (path : List Char) : List (List Char) :=
  path.foldr
    (fun c segments =>
      if c = '/' then [] :: segments
      else match segments with
        | [] => [[c]]
        | s :: rest => (c :: s) :: rest)
    [[]]

/-- The last segment that names something; `none` at the root and after two points. -/
def fileName? (path : String) : Option (List Char) :=
  match ((segments path.toList).filter fun s => s ≠ [] ∧ s ≠ ['.']).getLast? with
  | some ['.', '.'] => none
  | name => name

/-- What follows the last point of a name that does not start with it. -/
def extension? (name : List Char) : Option (List Char) :=
  let ext := (name.reverse.takeWhile (· != '.')).reverse
  if ext.length + 1 < name.length then some ext else none

/-- The format of a file; an unknown extension means comma separated. -/
def ofPath (path : String) : Format :=
  match (fileName? path).bind extension? with
  | none => .commaSeparated
  | some ext =>
    let ext := String.ofList (ext.map Char.toLower)
    if ext = "tsv" then .tabSeparated
    else if ext = "jsonl" ∨ ext = "ndjson" ∨ ext = "json" then .jsonLines
    else .commaSeparated

end Format

end LoginForest
