/-
  Writing a delimited table. A field is quoted only when it holds a mark.
-/
import LoginForest.Delimited.Marks

namespace LoginForest.Delimited

variable [BEq σ] (m : Marks σ)

def isMark (c : σ) : Bool := c == m.delimiter || c == m.quote || m.endsRow c

/-- The field between quotes, each quote inside it twice. -/
def quotedField (field : List σ) : List σ :=
  m.quote :: field.flatMap (fun c => if c == m.quote then [c, c] else [c]) ++ [m.quote]

def writeField (field : List σ) : List σ :=
  if field.any (isMark m) then quotedField m field else field

/-- Fields with delimiters between. -/
def writeFields : List (List σ) → List σ
  | [] => []
  | [f] => writeField m f
  | f :: fs => writeField m f ++ m.delimiter :: writeFields fs

/-- A row and its line end. A row of one empty field is a pair of quotes, because an empty
line would hold no row. -/
def writeRow (fields : List (List σ)) : List σ :=
  (if fields.all List.isEmpty && fields.length ≤ 1 then [m.quote, m.quote]
    else writeFields m fields) ++ [m.lineFeed]

def write (rows : List (List (List σ))) : List σ := rows.flatMap (writeRow m)

end LoginForest.Delimited
