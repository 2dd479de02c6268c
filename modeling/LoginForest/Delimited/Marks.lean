/-
  Delimited tables over any alphabet: the four marks that give a text its shape.
-/
namespace LoginForest.Delimited

/-- The field delimiter, the quote, and the two characters that end a row. -/
structure Marks (σ : Type) where
  delimiter : σ
  quote : σ
  carriageReturn : σ
  lineFeed : σ

/-- The marks in bytes. -/
def byteMarks (delimiter : UInt8) : Marks UInt8 := ⟨delimiter, 34, 13, 10⟩

/-- Whether a symbol ends a row. -/
def Marks.endsRow [BEq σ] (m : Marks σ) (c : σ) : Bool := c == m.carriageReturn || c == m.lineFeed

end LoginForest.Delimited
