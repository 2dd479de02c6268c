/-
  Reading a timestamp. A pattern is a list of items, each of which takes some characters and
  sets a field; a text is read by the first pattern that takes all of it.
-/
import LoginForest.Time.Timestamp
import LoginForest.Number.Reading
import LoginForest.Text.Blank

namespace LoginForest.Time

/-- The numbers of a timestamp as they are read. Without an offset the time is in UTC. -/
structure Reading where
  year : Int := 0
  month : Nat := 0
  day : Nat := 0
  hour : Nat := 0
  minute : Nat := 0
  second : Nat := 0
  nanos : Nat := 0
  offset : Int := 0

/-- The timestamp with these numbers, if there is one. -/
def Reading.timestamp? (r : Reading) : Option Timestamp := do
  let date ← Date.of? r.year r.month r.day
  let clock ← Clock.of? r.hour r.minute r.second r.nanos
  Timestamp.of? date clock (← Offset.of? r.offset)

inductive Field where
  | month
  | day
  | hour
  | minute
  | second

def Field.set (f : Field) (n : Nat) (r : Reading) : Reading :=
  match f with
  | .month => { r with month := n }
  | .day => { r with day := n }
  | .hour => { r with hour := n }
  | .minute => { r with minute := n }
  | .second => { r with second := n }

/-- How an offset may be written. -/
inductive Zone where
  | strict      -- `Z` or hours, a colon and minutes
  | relaxed     -- also `UTC`, and any colons and blanks before the minutes
  | permissive  -- also blanks in front, and hours alone

inductive Item where
  | mark (c : Char)
  | oneOf (cs : List Char)
  | blanks
  | year (exact : Bool)
  | field (f : Field) (exact : Bool)
  | fraction
  | zone (z : Zone)

/-- At most `most` digits, and at least `least`. -/
def digitRun? (least most : Nat) (cs : List Char) : Option (List Char × List Char) :=
  let ds := (cs.take most).takeWhile Char.isDigit
  if least ≤ ds.length then some (ds, cs.drop ds.length) else none

/-- A number of at most `most` digits, and at least `least`. -/
def number? (least most : Nat) (cs : List Char) : Option (Nat × List Char) :=
  (digitRun? least most cs).map fun (ds, rest) => (Number.valueFrom 0 ds, rest)

/-- A year: a sign and any number of digits, or up to four digits. -/
def year? (cs : List Char) : Option (Int × List Char) :=
  match Text.trimFront cs with
  | '-' :: rest => (number? 1 rest.length rest).map fun (n, rest) => (-(n : Int), rest)
  | '+' :: rest => (number? 1 rest.length rest).map fun (n, rest) => ((n : Int), rest)
  | rest => (number? 1 4 rest).map fun (n, rest) => ((n : Int), rest)

/-- Nanoseconds from the digits behind a point; those after the ninth do not count. -/
def fraction? (cs : List Char) : Option (Nat × List Char) :=
  (digitRun? 1 9 cs).map fun (ds, rest) =>
    (Number.valueFrom 0 ds * Number.tenTo (9 - ds.length), rest.dropWhile Char.isDigit)

/-- A sign: plus, hyphen or the minus sign. -/
def offsetSign? : List Char → Option (Bool × List Char)
  | '+' :: cs => some (false, cs)
  | '-' :: cs => some (true, cs)
  | '\u2212' :: cs => some (true, cs)
  | _ => none

/-- The minutes of an offset, which only a permissive zone may leave out at the end. -/
def offsetMinutes? (z : Zone) (cs : List Char) : Option (Nat × List Char) :=
  match z, cs with
  | .permissive, [] => some (0, [])
  | _, _ => (number? 2 2 cs).bind fun (n, rest) => if n < 60 then some (n, rest) else none

/-- What stands between hours and minutes. -/
def offsetColon? (z : Zone) (cs : List Char) : Option (List Char) :=
  match z with
  | .strict =>
    match cs with
    | ':' :: rest => some rest
    | _ => none
  | _ => some (cs.dropWhile fun c => c == ':' || Text.isBlank c)

/-- An offset in minutes east of UTC. -/
def offset? (z : Zone) (cs : List Char) : Option (Int × List Char) :=
  match cs with
  | 'Z' :: rest => some (0, rest)
  | 'z' :: rest => some (0, rest)
  | cs => do
    let (negative, cs) ← offsetSign? cs
    let (hours, cs) ← number? 2 2 cs
    let (minutes, cs) ← offsetMinutes? z (← offsetColon? z cs)
    let total : Int := (hours * 60 + minutes : Nat)
    return (if negative then -total else total, cs)

def zone? (z : Zone) (cs : List Char) : Option (Int × List Char) :=
  match z with
  | .strict => offset? z cs
  | .permissive => offset? z (Text.trimFront cs)
  | .relaxed =>
    let cs := Text.trimFront cs
    if (cs.take 3).map Char.toLower = ['u', 't', 'c'] then some (0, cs.drop 3) else offset? z cs

/-- Take one item off the text. -/
def Item.read? (item : Item) (r : Reading) (cs : List Char) : Option (Reading × List Char) :=
  match item with
  | .mark c => if cs.head? = some c then some (r, cs.tail) else none
  | .oneOf marks => if cs.head?.any marks.contains then some (r, cs.tail) else none
  | .blanks => some (r, Text.trimFront cs)
  | .year true => (number? 4 4 cs).map fun (n, rest) => ({ r with year := n }, rest)
  | .year false => (year? cs).map fun (y, rest) => ({ r with year := y }, rest)
  | .field f true => (number? 2 2 cs).map fun (n, rest) => (f.set n r, rest)
  | .field f false => (number? 1 2 (Text.trimFront cs)).map fun (n, rest) => (f.set n r, rest)
  | .fraction =>
    match cs with
    | '.' :: rest => (fraction? rest).map fun (n, rest) => ({ r with nanos := n }, rest)
    | cs => some (r, cs)
  | .zone z => (zone? z cs).map fun (m, rest) => ({ r with offset := m }, rest)

/-- Take the items off the text one after another. -/
def readItems? : List Item → Reading → List Char → Option (Reading × List Char)
  | [], r, cs => some (r, cs)
  | item :: items, r, cs => (item.read? r cs).bind fun (r, cs) => readItems? items r cs

/-- The timestamp of a text that the pattern takes as a whole. -/
def readAll? (items : List Item) (cs : List Char) : Option Timestamp :=
  match readItems? items {} cs with
  | some (r, []) => r.timestamp?
  | _ => none

/-- Date and time with fields of fixed width and an offset. -/
def strictPattern : List Item :=
  [.year true, .mark '-', .field .month true, .mark '-', .field .day true,
    .oneOf ['t', 'T', ' '], .field .hour true, .mark ':', .field .minute true, .mark ':',
    .field .second true, .fraction, .zone .strict]

/-- Date and time with blanks allowed before each number. -/
def loosePattern (separator : Item) (ending : List Item) : List Item :=
  [.year false, .mark '-', .field .month false, .mark '-', .field .day false, separator,
    .field .hour false, .mark ':', .field .minute false, .mark ':', .field .second false,
    .fraction] ++ ending

/-- The patterns a stored timestamp is tried with, in this order. -/
def patterns : List (List Item) :=
  [strictPattern, loosePattern .blanks [.zone .permissive],
    loosePattern (.mark 'T') [.zone .permissive], loosePattern .blanks [],
    loosePattern (.mark 'T') []]

/-- Read a stored timestamp. One without an offset is in UTC. -/
def Timestamp.read? (s : String) : Option Timestamp :=
  let cs := Text.trimChars s.toList
  patterns.findSome? fun items => readAll? items cs

/-- Date and time with blanks allowed around each number, and an offset. -/
def relaxedPattern : List Item :=
  [.year false, .blanks, .mark '-', .field .month false, .blanks, .mark '-', .field .day false,
    .oneOf ['t', 'T', ' '], .field .hour false, .blanks, .mark ':', .field .minute false,
    .blanks, .mark ':', .field .second false, .fraction, .blanks, .zone .relaxed, .blanks]

/-- Read a timestamp inside a JSON document. -/
def Timestamp.ofJsonText? (s : String) : Option Timestamp := readAll? relaxedPattern s.toList

end LoginForest.Time
