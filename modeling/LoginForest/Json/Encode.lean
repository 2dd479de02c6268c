/-
  Writing typed data as values, and the indented text of a flat record.
-/
import LoginForest.Json.Value

namespace LoginForest.Json

def Value.count (n : Nat) : Value := .number (.count n)

def Value.word (w : UInt64) : Value := .count w.toNat

def Value.real (x : Float) : Value := .number (.real x)

/-- `null` for no value. -/
def Value.optional (write : α → Value) : Option α → Value
  | none => .null
  | some a => write a

/-- A record with one member a line, indented by two blanks. -/
def indentedChars (members : List (String × Value)) : List Char :=
  let line := fun (m : String × Value) =>
    ' ' :: ' ' :: literalChars m.1 ++ ':' :: ' ' :: m.2.chars
  '\x7b' :: '\n' :: [',', '\n'].intercalate (members.map line) ++ ['\n', '\x7d']

def indented (members : List (String × Value)) : String :=
  String.ofList (indentedChars members)

end LoginForest.Json
