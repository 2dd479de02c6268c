/-
  The written form of a timestamp, `2024-03-15T08:30:00.250+02:00`.
-/
import LoginForest.Time.Timestamp
import LoginForest.Number.Format

namespace LoginForest.Time

open LoginForest.Number (digitsOf padZeros)

/-- Four digits, or a sign and at least four for a year that four digits cannot tell. -/
def yearChars (y : Int) : List Char :=
  if 0 ≤ y ∧ y ≤ 9999 then padZeros 4 (digitsOf y.toNat)
  else (if y < 0 then '-' else '+') :: padZeros 4 (digitsOf y.natAbs)

def pairChars (n : Nat) : List Char := padZeros 2 (digitsOf n)

/-- Nanoseconds as three, six or nine digits behind a point, as few as are exact. -/
def fractionChars (n : Nat) : List Char :=
  if n = 0 then []
  else if n % 1000000 = 0 then '.' :: padZeros 3 (digitsOf (n / 1000000))
  else if n % 1000 = 0 then '.' :: padZeros 6 (digitsOf (n / 1000))
  else '.' :: padZeros 9 (digitsOf n)

def Date.chars (d : Date) : List Char :=
  yearChars d.year ++ '-' :: pairChars d.month ++ '-' :: pairChars d.day

/-- A leap second is written as second 60. -/
def Clock.chars (c : Clock) : List Char :=
  let (second, nanos) :=
    if c.nanos < 1000000000 then (c.second, c.nanos) else (c.second + 1, c.nanos - 1000000000)
  pairChars c.hour ++ ':' :: pairChars c.minute ++ ':' :: pairChars second ++ fractionChars nanos

/-- Sign, hours and minutes. -/
def Offset.chars (o : Offset) : List Char :=
  (if o.minutes < 0 then '-' else '+') ::
    pairChars (o.minutes.natAbs / 60) ++ ':' :: pairChars (o.minutes.natAbs % 60)

namespace Timestamp

def localChars (t : Timestamp) : List Char := t.date.chars ++ 'T' :: t.clock.chars

/-- The offset always in numbers. -/
def text (t : Timestamp) : String := String.ofList (t.localChars ++ t.offset.chars)

/-- `Z` for the offset zero. -/
def zuluText (t : Timestamp) : String :=
  String.ofList (t.localChars ++ if t.offset.minutes = 0 then ['Z'] else t.offset.chars)

/-- Date, hour and minute. -/
def minuteText (t : Timestamp) : String :=
  String.ofList
    (t.date.chars ++ ' ' :: pairChars t.clock.hour ++ ':' :: pairChars t.clock.minute)

end Timestamp

end LoginForest.Time
