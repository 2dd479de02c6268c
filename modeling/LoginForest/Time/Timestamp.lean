/-
  A time of day on a date, with the offset from UTC that it was recorded in. Two timestamps
  are compared by the instant they denote.
-/
import LoginForest.Time.Date

namespace LoginForest.Time

/-- A time of day. In a leap second `second` is 59 and `nanos` at least a thousand million. -/
structure Clock where
  hour : Nat
  minute : Nat
  second : Nat
  nanos : Nat
  hour_lt : hour < 24
  minute_lt : minute < 60
  second_lt : second < 60
  nanos_lt : nanos < 2000000000
  leap : nanos < 1000000000 ∨ second = 59
deriving DecidableEq, Repr

/-- The time of day with these numbers; second 60 is the leap second. -/
def Clock.of? (hour minute second nanos : Nat) : Option Clock :=
  if h : hour < 24 ∧ minute < 60 ∧ nanos < 1000000000 then
    if hs : second < 60 then
      some ⟨hour, minute, second, nanos, h.1, h.2.1, hs, by omega, .inl h.2.2⟩
    else if second = 60 then
      some ⟨hour, minute, 59, nanos + 1000000000, h.1, h.2.1, by decide, by omega, .inr rfl⟩
    else none
  else none

/-- Minutes east of UTC, less than a day either way. -/
structure Offset where
  minutes : Int
  gt : -1440 < minutes
  lt : minutes < 1440
deriving DecidableEq, Repr

def Offset.utc : Offset := ⟨0, by decide, by decide⟩

def Offset.of? (minutes : Int) : Option Offset :=
  if h : -1440 < minutes ∧ minutes < 1440 then some ⟨minutes, h.1, h.2⟩ else none

/-- Minutes of the UTC day at a local time, before carrying into another day. -/
def Clock.utcMinutes (c : Clock) (o : Offset) : Int := (c.hour * 60 + c.minute : Nat) - o.minutes

/-- The date that a day is carried into by `minutes` from its start. -/
def Date.carried (d : Date) (minutes : Int) : Date :=
  if minutes < 0 then d.previous else if minutes < 1440 then d else d.next

theorem Date.carried_of_sameDay (d : Date) {minutes : Int} (h : 0 ≤ minutes)
    (h' : minutes < 1440) : d.carried minutes = d := by
  simp [carried, h', Int.not_lt.mpr h]

/-- Years that a date may have. -/
def yearInRange (y : Int) : Bool := -262143 ≤ y && y ≤ 262142

/-- A local date and time of day with its offset, the date in range both here and in UTC. -/
structure Timestamp where
  date : Date
  clock : Clock
  offset : Offset
  year_inRange : yearInRange date.year
  utcYear_inRange : yearInRange (date.carried (clock.utcMinutes offset)).year
deriving DecidableEq, Repr

namespace Timestamp

/-- Minutes of the UTC day, before carrying into another day. -/
def utcMinutes (t : Timestamp) : Int := t.clock.utcMinutes t.offset

/-- The date in UTC. -/
def utcDate (t : Timestamp) : Date := t.date.carried t.utcMinutes

/-- The timestamp, if its date is in range both here and in UTC. -/
def of? (date : Date) (clock : Clock) (offset : Offset) : Option Timestamp :=
  if h : yearInRange date.year ∧ yearInRange (date.carried (clock.utcMinutes offset)).year then
    some ⟨date, clock, offset, h.1, h.2⟩
  else none

/-- The same instant in UTC. -/
def toUtc (t : Timestamp) : Timestamp :=
  let m := (t.utcMinutes % 1440).toNat
  { date := t.utcDate
    clock :=
      { t.clock with
        hour := m / 60
        minute := m % 60
        hour_lt := by omega
        minute_lt := by omega }
    offset := .utc
    year_inRange := t.utcYear_inRange
    utcYear_inRange := by
      rw [Date.carried_of_sameDay]
      · exact t.utcYear_inRange
      all_goals simp only [Clock.utcMinutes, Offset.utc]; omega }

theorem offset_toUtc (t : Timestamp) : t.toUtc.offset = .utc := rfl

/-- Seconds since 1970 began in UTC. -/
def unixSeconds (t : Timestamp) : Int :=
  t.date.dayNumber * 86400 + (t.clock.hour * 3600 + t.clock.minute * 60 + t.clock.second : Nat) -
    t.offset.minutes * 60

/-- The timestamp in UTC `seconds` after 1970 began. -/
def ofUnix? (seconds : Int) (nanos : Nat) : Option Timestamp := do
  let date ← Date.ofDayNumber? (seconds / 86400)
  let second := (seconds % 86400).toNat
  let clock ← Clock.of? (second / 3600) (second / 60 % 60) (second % 60) nanos
  of? date clock .utc

/-- `a` is no later than `b`. -/
def notAfter (a b : Timestamp) : Bool :=
  a.unixSeconds < b.unixSeconds ||
    (a.unixSeconds == b.unixSeconds && a.clock.nanos ≤ b.clock.nanos)

/-- Both denote one instant. -/
def sameInstant (a b : Timestamp) : Bool :=
  a.unixSeconds == b.unixSeconds && a.clock.nanos == b.clock.nanos

/-- The first instant of 1970. -/
def epoch : Timestamp where
  date := ⟨1970, 1, 1, by decide, by decide, by decide, by decide⟩
  clock := ⟨0, 0, 0, 0, by decide, by decide, by decide, by decide, by decide⟩
  offset := .utc
  year_inRange := by decide
  utcYear_inRange := by decide

end Timestamp

end LoginForest.Time
