/-
  Bytes of a file, and the text that they encode in UTF-8.
-/
namespace LoginForest

abbrev Bytes := List UInt8

namespace Bytes

/-- The text with this encoding, if it is valid. -/
def text? (b : Bytes) : Option String := String.fromUTF8? b.toByteArray

def ofText (s : String) : Bytes := s.toUTF8.toList

/-- A character, or a byte that belongs to none. -/
inductive Symbol where
  | char (c : Char)
  | stray (b : UInt8)
deriving DecidableEq, Repr

/-- The character that the first bytes encode, and how many bytes it takes. -/
def front? (b : Bytes) : Option (Char × Nat) :=
  [1, 2, 3, 4].findSome? fun n =>
    match (text? (b.take n)).map String.toList with
    | some [c] => some (c, n)
    | _ => none

/-- The symbols after `skip` bytes. -/
def symbolsAfter : (skip : Nat) → Bytes → List Symbol
  | _, [] => []
  | skip + 1, _ :: rest => symbolsAfter skip rest
  | 0, b :: rest =>
    match front? (b :: rest) with
    | some (c, n) => .char c :: symbolsAfter (n - 1) rest
    | none => .stray b :: symbolsAfter 0 rest

/-- What bytes encode, valid or not. -/
def symbols (b : Bytes) : List Symbol := symbolsAfter 0 b

end Bytes

end LoginForest
