/-
  Dates of the Gregorian calendar, carried back before its introduction, with a year zero.
-/
namespace LoginForest.Time

def isLeapYear (y : Int) : Bool := y % 4 == 0 && (y % 100 != 0 || y % 400 == 0)

def daysInMonth (y : Int) (m : Nat) : Nat :=
  match m with
  | 2 => if isLeapYear y then 29 else 28
  | 4 | 6 | 9 | 11 => 30
  | _ => 31

theorem daysInMonth_pos (y : Int) (m : Nat) : 0 < daysInMonth y m := by
  unfold daysInMonth
  split <;> try split
  all_goals omega

structure Date where
  year : Int
  month : Nat
  day : Nat
  month_pos : 1 ≤ month
  month_le : month ≤ 12
  day_pos : 1 ≤ day
  day_le : day ≤ daysInMonth year month
deriving DecidableEq, Repr

namespace Date

/-- The date with these numbers, if there is one. -/
def of? (year : Int) (month day : Nat) : Option Date :=
  if h : 1 ≤ month ∧ month ≤ 12 ∧ 1 ≤ day ∧ day ≤ daysInMonth year month then
    some ⟨year, month, day, h.1, h.2.1, h.2.2.1, h.2.2.2⟩
  else none

/-- The day after. -/
def next (d : Date) : Date :=
  if h : d.day < daysInMonth d.year d.month then
    ⟨d.year, d.month, d.day + 1, d.month_pos, d.month_le, by omega, h⟩
  else if hm : d.month < 12 then
    ⟨d.year, d.month + 1, 1, by omega, hm, by omega, daysInMonth_pos _ _⟩
  else ⟨d.year + 1, 1, 1, by omega, by omega, by omega, daysInMonth_pos _ _⟩

/-- The day before. -/
def previous (d : Date) : Date :=
  if h : 1 < d.day then
    ⟨d.year, d.month, d.day - 1, d.month_pos, d.month_le, by omega,
      Nat.le_trans (Nat.sub_le ..) d.day_le⟩
  else if hm : 1 < d.month then
    ⟨d.year, d.month - 1, daysInMonth d.year (d.month - 1), by omega,
      Nat.le_trans (Nat.sub_le ..) d.month_le, daysInMonth_pos _ _, Nat.le_refl _⟩
  else ⟨d.year - 1, 12, 31, by omega, by omega, by omega, Nat.le_refl _⟩

/-- Days before 1 March of a year that starts in March, counted from its start. -/
def daysBeforeMonth (m : Nat) : Nat := (153 * ((m + 9) % 12) + 2) / 5

/-- Days since 1 January 1970. Years are counted from March, so that a leap day ends its
year. -/
def dayNumber (d : Date) : Int :=
  let y := if d.month ≤ 2 then d.year - 1 else d.year
  365 * y + y / 4 - y / 100 + y / 400 + daysBeforeMonth d.month + d.day - 719469

/-- The date `n` days after 1 January 1970. The days are counted from 1 March of a year that
four hundred divides, in whole periods of four hundred years and the rest. -/
def ofDayNumber? (n : Int) : Option Date :=
  let days := n + 719468
  let rest := (days % 146097).toNat
  let year := (rest - rest / 1460 + rest / 36524 - rest / 146096) / 365
  let day := rest - (365 * year + year / 4 - year / 100)
  let month := (5 * day + 2) / 153
  let y : Int := days / 146097 * 400 + year
  of? (if month < 10 then y else y + 1) (if month < 10 then month + 3 else month - 9)
    (day - (153 * month + 2) / 5 + 1)

/-- Days since the last Monday. -/
def weekday (d : Date) : Nat := ((d.dayNumber + 3) % 7).toNat

theorem weekday_lt (d : Date) : d.weekday < 7 := by
  unfold weekday
  omega

end Date

end LoginForest.Time
