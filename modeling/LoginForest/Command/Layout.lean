/-
  What the commands print: headings, steps, the box of the summary and the ranked table.
-/
import LoginForest.Error
import LoginForest.Scoring.Scored

namespace LoginForest.Layout

def blanks (n : Nat) : String := String.ofList (List.replicate n ' ')

/-- The text with blanks behind it, up to `width` characters. -/
def padEnd (width : Nat) (s : String) : String := s ++ blanks (width - s.length)

/-- The text with blanks in front of it, up to `width` characters. -/
def padStart (width : Nat) (s : String) : String := blanks (width - s.length) ++ s

/-- The front of a text that is too long, ended by an ellipsis. -/
def shorten (width : Nat) (s : String) : String :=
  if s.length ≤ width then s else String.ofList (s.toList.take (width - 1)) ++ "…"

def rule (n : Nat) : String := String.ofList (List.replicate n '─')

def heading (title : String) : List String := ["", "  " ++ title, "  " ++ rule 56]

/-- A step that is going on. -/
def step (what : String) : String := "  › " ++ what ++ "... "

/-- The end of a step, with a detail or none. -/
def finished (detail : String) : String := if detail.isEmpty then "done" else "done " ++ detail

/-- Something was done. -/
def success (what : String) : String := "  ✓ " ++ what

/-- Something to be aware of. -/
def warning (what : String) : String := "  ! " ++ what

/-- What is said when no attempt is trusted. -/
def fallback (occurred : Bool) : List String :=
  if occurred then [warning "No trusted records; the model was trained on all records"] else []

/-- Characters between the sides of a box. -/
def boxWidth : Nat := 58

def boxLine (content : String) : String := "  │  " ++ padEnd boxWidth content ++ " │"

def boxCentre (content : String) : String :=
  let space := boxWidth - content.length
  "  │  " ++ blanks (space / 2) ++ content ++ blanks (space - space / 2) ++ " │"

/-- A name and its value. -/
def entry (name value : String) : String := padEnd 18 name ++ " " ++ value

/-- The box of the summary; `training` is left out where nothing was trained. -/
def summary (records : Nat) (training : Option Nat) (flagged : Nat) (threshold : Float) :
    List String :=
  ["", "  ┌" ++ rule 57 ++ "┐", boxCentre "Login Anomaly Summary", "  ├" ++ rule 57 ++ "┤",
    boxLine (entry "Records" (decimalText records))] ++
  (match training with
    | some n => [boxLine (entry "Training records" (decimalText n))]
    | none => []) ++
  [boxLine (entry "Flagged" (decimalText flagged)),
    boxLine (entry "Threshold" (Number.fixed 4 threshold)),
    "  └" ++ rule 57 ++ "┘"]

/-- The cells of a row of the ranked table. -/
def cells (rank id address place network score : String) : String :=
  padEnd 4 rank ++ " " ++ padEnd 12 id ++ " " ++ padEnd 16 address ++ " " ++ padEnd 18 place ++
    " " ++ padEnd 20 network ++ " " ++ padStart 7 score

def tableRow (rank : Nat) (s : Scored) : String :=
  let a := s.attempt
  let place := a.country.getD "-" ++ "/" ++ a.city.getD "-"
  "  " ++ cells (decimalText rank) (shorten 12 a.id) (shorten 16 (a.address.getD "-"))
    (shorten 18 place) (shorten 20 (a.network.getD "-")) (Number.fixed 4 s.score) ++
    (if s.flagged then " anomaly" else "")

/-- The ranked table, best first; nothing when there is no row. -/
def table (rows : List Scored) : List String :=
  if rows.isEmpty then []
  else
    heading ("Top " ++ decimalText rows.length ++ " by anomaly score") ++
      ("  " ++ cells "#" "id" "ip" "country/city" "asn" "score" ++ " ") ::
      rows.mapIdx fun i s => tableRow (i + 1) s

end LoginForest.Layout
