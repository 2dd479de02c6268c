/-
  JSON tokens, read off a text one character at a time.
-/
import LoginForest.Json.Node
import LoginForest.Number.Reading
import LoginForest.Text.Bytes

namespace LoginForest.Json

inductive Token where
  | listOpen
  | listClose
  | recordOpen
  | recordClose
  | comma
  | colon
  | null
  | bool (b : Bool)
  | number (n : Numeral)
  | text (t : Literal)
deriving Repr, DecidableEq

/-- Digits that do not start with a superfluous zero. -/
def isWhole : List Char → Bool
  | [] => false
  | ['0'] => true
  | '0' :: _ => false
  | _ :: _ => true

/-- A number without its sign: digits, then a point with digits, then an exponent. -/
def unsignedNumeral? (negative : Bool) (cs : List Char) : Option Numeral :=
  let whole := cs.takeWhile Char.isDigit
  let rest := cs.dropWhile Char.isDigit
  if !isWhole whole then none
  else
    let (places, tail) := match rest with
      | '.' :: rest => (some (rest.takeWhile Char.isDigit), rest.dropWhile Char.isDigit)
      | rest => (none, rest)
    if places == some [] then none
    else match tail with
      | [] => some ⟨negative, whole, places, none⟩
      | tail => (Number.exponent? tail).map fun e => ⟨negative, whole, places, some e⟩

def numeral? : List Char → Option Numeral
  | '-' :: cs => unsignedNumeral? true cs
  | cs => unsignedNumeral? false cs

/-- A run of word characters is a name or a number. -/
def Token.ofWord? (cs : List Char) : Option Token :=
  if cs = ['n', 'u', 'l', 'l'] then some .null
  else if cs = ['t', 'r', 'u', 'e'] then some (.bool true)
  else if cs = ['f', 'a', 'l', 's', 'e'] then some (.bool false)
  else (numeral? cs).map .number

def isWordChar (c : Char) : Bool := c.isAlphanum || c == '+' || c == '-' || c == '.'

def isSpace (c : Char) : Bool := c == ' ' || c == '\n' || c == '\r' || c == '\t'

/-- Where in a token the reader stands; what is read of it comes last first. -/
inductive Mode where
  | between
  | word (cs : List Char)
  | text (ps : Literal)
  | escape (ps : Literal)
  | code (ps : Literal) (digits value : Nat)

/-- Reader state: the tokens so far, last first. -/
structure Lexing where
  tokens : List Token
  mode : Mode

/-- A character that starts a token or stands between two. -/
def Lexing.start (tokens : List Token) (c : Char) : Option Lexing :=
  if c == '[' then some ⟨.listOpen :: tokens, .between⟩
  else if c == ']' then some ⟨.listClose :: tokens, .between⟩
  else if c == '\x7b' then some ⟨.recordOpen :: tokens, .between⟩
  else if c == '\x7d' then some ⟨.recordClose :: tokens, .between⟩
  else if c == ',' then some ⟨.comma :: tokens, .between⟩
  else if c == ':' then some ⟨.colon :: tokens, .between⟩
  else if c == '"' then some ⟨tokens, .text []⟩
  else if isSpace c then some ⟨tokens, .between⟩
  else if isWordChar c then some ⟨tokens, .word [c]⟩
  else none

/-- What a character after a backslash stands for. -/
def unescape? (c : Char) : Option Char :=
  match c with
  | '"' => some '"'
  | '\\' => some '\\'
  | '/' => some '/'
  | 'b' => some '\x08'
  | 'f' => some '\x0c'
  | 'n' => some '\n'
  | 'r' => some '\r'
  | 't' => some '\t'
  | _ => none

def Lexing.step (s : Lexing) (c : Char) : Option Lexing :=
  match s.mode with
  | .between => Lexing.start s.tokens c
  | .word cs =>
    if isWordChar c then some ⟨s.tokens, .word (c :: cs)⟩
    else (Token.ofWord? cs.reverse).bind fun t => Lexing.start (t :: s.tokens) c
  | .text ps =>
    if c == '"' then some ⟨.text ps.reverse :: s.tokens, .between⟩
    else if c == '\\' then some ⟨s.tokens, .escape ps⟩
    else if c.toNat < 0x20 then none
    else some ⟨s.tokens, .text (.char c :: ps)⟩
  | .escape ps =>
    if c == 'u' then some ⟨s.tokens, .code ps 0 0⟩
    else (unescape? c).map fun d => ⟨s.tokens, .text (.char d :: ps)⟩
  | .code ps digits value =>
    (Number.hexDigit? c).map fun d =>
      if digits = 3 then ⟨s.tokens, .text (.unit (value * 16 + d) :: ps)⟩
      else ⟨s.tokens, .code ps (digits + 1) (value * 16 + d)⟩

/-- A stray byte can only stand in a string literal. -/
def Lexing.strayStep (s : Lexing) (b : UInt8) : Option Lexing :=
  match s.mode with
  | .text ps => some ⟨s.tokens, .text (.stray b :: ps)⟩
  | _ => none

def Lexing.symbolStep (s : Lexing) : Bytes.Symbol → Option Lexing
  | .char c => s.step c
  | .stray b => s.strayStep b

/-- The tokens when the text ends here. -/
def Lexing.finish (s : Lexing) : Option (List Token) :=
  match s.mode with
  | .between => some s.tokens.reverse
  | .word cs => (Token.ofWord? cs.reverse).map fun t => (t :: s.tokens).reverse
  | _ => none

def tokens? (cs : List Char) : Option (List Token) :=
  (cs.foldlM Lexing.step ⟨[], .between⟩).bind Lexing.finish

def symbolTokens? (symbols : List Bytes.Symbol) : Option (List Token) :=
  (symbols.foldlM Lexing.symbolStep ⟨[], .between⟩).bind Lexing.finish

end LoginForest.Json
