/-
  Reading a delimited table. A field may be quoted; inside quotes a quote is written twice.
  Empty lines hold no row, and rows may differ in length.
-/
import LoginForest.Delimited.Marks

namespace LoginForest.Delimited

inductive Mode where
  | rowStart
  | fieldStart
  | bare
  | quoted
  | quoteSeen   -- a quote inside quotes: the end of the quoted part, or half of a doubled one

/-- Reader state; the field, the fields of its row and the rows come last first. -/
structure Scan (σ : Type) where
  mode : Mode
  field : List σ
  fields : List (List σ)
  rows : List (List (List σ))

namespace Scan

def start : Scan σ := ⟨.rowStart, [], [], []⟩

def push (s : Scan σ) (mode : Mode) (c : σ) : Scan σ := { s with mode, field := c :: s.field }

def endField (s : Scan σ) : Scan σ :=
  { s with mode := .fieldStart, field := [], fields := s.field.reverse :: s.fields }

def endRow (s : Scan σ) : Scan σ :=
  { mode := .rowStart
    field := []
    fields := []
    rows := (s.field.reverse :: s.fields).reverse :: s.rows }

variable [BEq σ] (m : Marks σ)

/-- A symbol outside quotes. -/
def bareStep (s : Scan σ) (c : σ) : Scan σ :=
  if c == m.delimiter then s.endField
  else if m.endsRow c then s.endRow
  else s.push .bare c

/-- A symbol at the start of a field. -/
def fieldStep (s : Scan σ) (c : σ) : Scan σ :=
  if c == m.quote then { s with mode := .quoted } else bareStep m s c

def step (s : Scan σ) (c : σ) : Scan σ :=
  match s.mode with
  | .rowStart => if m.endsRow c then s else fieldStep m s c
  | .fieldStart => fieldStep m s c
  | .bare => bareStep m s c
  | .quoted => if c == m.quote then { s with mode := .quoteSeen } else s.push .quoted c
  | .quoteSeen => if c == m.quote then s.push .quoted c else bareStep m s c

/-- The rows when the text ends here; an unfinished row counts. -/
def finish (s : Scan σ) : List (List (List σ)) :=
  match s.mode with
  | .rowStart => s.rows.reverse
  | _ => s.endRow.rows.reverse

end Scan

/-- The rows of a table, each a list of fields. -/
def rows [BEq σ] (m : Marks σ) (text : List σ) : List (List (List σ)) :=
  (text.foldl (Scan.step m) Scan.start).finish

end LoginForest.Delimited
