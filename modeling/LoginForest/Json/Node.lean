/-
  JSON as it is written. A node keeps number and string literals undecoded, so that a reader
  decides itself which parts it looks at: what a reader skips has to be well formed, and no more.
-/
namespace LoginForest.Json

/-- A piece of a string literal: a character, a code unit given as `\uXXXX`, or a byte that
belongs to no character. -/
inductive Piece where
  | char (c : Char)
  | unit (code : Nat)
  | stray (b : UInt8)
deriving Repr, DecidableEq

abbrev Literal := List Piece

/-- A number literal. `places` are the digits behind the point, if there is one. -/
structure Numeral where
  negative : Bool
  whole : List Char
  places : Option (List Char)
  exponent : Option Int
deriving Repr, DecidableEq

inductive Node where
  | null
  | bool (b : Bool)
  | number (n : Numeral)
  | text (t : Literal)
  | list (items : List Node)
  | record (members : List (Literal × Node))
deriving Repr

def isHighSurrogate (u : Nat) : Bool := 0xd800 ≤ u && u < 0xdc00

def isLowSurrogate (u : Nat) : Bool := 0xdc00 ≤ u && u < 0xe000

/-- A text being decoded: the characters so far, last first, and a high surrogate that waits
for its low one. -/
structure Decoding where
  done : List Char
  pending : Option Nat

def Decoding.step (s : Decoding) (p : Piece) : Option Decoding :=
  match s.pending, p with
  | _, .stray _ => none
  | none, .char c => some ⟨c :: s.done, none⟩
  | none, .unit u =>
    if isHighSurrogate u then some ⟨s.done, some u⟩
    else if isLowSurrogate u then none
    else some ⟨Char.ofNat u :: s.done, none⟩
  | some _, .char _ => none
  | some high, .unit u =>
    if isLowSurrogate u then
      some ⟨Char.ofNat (0x10000 + (high - 0xd800) * 0x400 + (u - 0xdc00)) :: s.done, none⟩
    else none

/-- The text of a literal; `none` when a surrogate stands alone or a byte is stray. -/
def Literal.decode? (t : Literal) : Option String :=
  match t.foldlM Decoding.step ⟨[], none⟩ with
  | some ⟨done, none⟩ => some (String.ofList done.reverse)
  | _ => none

end LoginForest.Json
