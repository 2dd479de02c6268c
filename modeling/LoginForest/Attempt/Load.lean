/-
  Loading an export. In strict mode the first row that cannot be read is an error; otherwise
  such rows are skipped.
-/
import LoginForest.Attempt.Format
import LoginForest.Attempt.Row
import LoginForest.Delimited.Reader
import LoginForest.Json.Parser
import LoginForest.Text.Bytes

namespace LoginForest

inductive Strictness where
  | strict
  | lenient
deriving DecidableEq, Repr

namespace Load

/-- A byte order mark in front does not belong to the table. -/
def dropMark : Bytes → Bytes
  | 0xef :: 0xbb :: 0xbf :: rest => rest
  | b => b

/-- Place of the last header field with this name, blanks around it and the case of letters
aside. -/
def lastColumn? (header : List String) (column : String) : Option Nat :=
  (header.zipIdx.reverse.find? fun (name, _) => Text.lowered (Text.trim name) = column).map (·.2)

def tableRow (header fields : List String) : Row :=
  Row.ofColumns fun column =>
    ((lastColumn? header column).bind fun i => fields[i]?).bind Text.filled?

/-- The rows of a delimited table with a header. -/
def tableRows (mode : Strictness) (delimiter : UInt8) (content : Bytes) :
    Except Error (List Row) :=
  match Delimited.rows (Delimited.byteMarks delimiter) (dropMark content) with
  | [] => .ok []
  | header :: body =>
    match header.mapM Bytes.text? with
    | none => .error .unreadableTable
    | some header =>
      match mode with
      | .lenient =>
        .ok (body.filterMap fun fields => (fields.mapM Bytes.text?).map (tableRow header))
      | .strict =>
        match body.mapM fun fields => (fields.mapM Bytes.text?).map (tableRow header) with
        | some rows => .ok rows
        | none => .error .unreadableTable

/-- The parts between line feeds, last first. -/
def splitStep (lines : List Bytes) (b : UInt8) : List Bytes :=
  if b = 10 then [] :: lines
  else match lines with
    | [] => [[b]]
    | line :: rest => (b :: line) :: rest

def lines (content : Bytes) : List Bytes :=
  (content.foldl splitStep [[]]).reverse.map List.reverse

/-- The row on a line, given with its number from one. -/
def lineRow (number : Nat) (line : String) : Except Error Row :=
  match (Json.parse? line).bind (Json.Node.toValue? Json.depthLimit) with
  | none => .error .malformed
  | some v =>
    match Row.ofValue? v with
    | some r => .ok r
    | none => .error (.notObject number)

/-- Read one line: nothing on a blank line, and nothing on an unreadable one unless strict.
A line that is not valid UTF-8 is an error in either mode. -/
def readLine (mode : Strictness) (number : Nat) (line : Bytes) : Except Error (Option Row) :=
  match line.text? with
  | none => .error .file
  | some s =>
    if Text.trimChars s.toList = [] then .ok none
    else match lineRow number s, mode with
      | .ok r, _ => .ok (some r)
      | .error _, .lenient => .ok none
      | .error e, .strict => .error e

/-- The rows of JSON records, one a line. -/
def lineRows (mode : Strictness) (content : Bytes) : Except Error (List Row) := do
  let rows ← (lines content).zipIdx.mapM fun (line, i) => readLine mode (i + 1) line
  return rows.filterMap id

/-- The rows of a file's content; `none` when there is no such file. -/
def rows (mode : Strictness) (format : Format) (content : Option Bytes) :
    Except Error (List Row) :=
  match format, content with
  | .commaSeparated, some b => tableRows mode 44 b
  | .tabSeparated, some b => tableRows mode 9 b
  | .jsonLines, some b => lineRows mode b
  | .jsonLines, none => .error .file
  | _, none => .error .unreadableTable

end Load

/-- The attempts in a file's content. -/
def load (mode : Strictness) (format : Format) (content : Option Bytes) :
    Except Error (List Attempt) :=
  (Load.rows mode format content).map interpretRows

end LoginForest
