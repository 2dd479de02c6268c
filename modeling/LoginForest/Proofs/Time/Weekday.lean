/-
  Days in the calendar. Every date has the number after that of the day before (`dayNumber_next`)
  and no two dates have one number (`eq_of_dayNumber_eq`), so weekdays follow one another
  (`weekday_next`). The date, the weekday and the hour of a timestamp are those of its local
  seconds (`dayNumber_date`, `weekday_eq`, `hour_eq`); in UTC it denotes the same instant
  (`sameInstant_toUtc`).
-/
import LoginForest.Time.Timestamp
import Mathlib

namespace LoginForest.Time

/-! ## Day numbers -/

/-- Leap days up to the end of a year. -/
theorem leapDays_succ (y : Int) :
    y / 4 - y / 100 + y / 400 = (y - 1) / 4 - (y - 1) / 100 + (y - 1) / 400 +
      if isLeapYear y then 1 else 0 := by
  unfold isLeapYear
  split
  case isTrue h =>
    simp only [Bool.and_eq_true, Bool.or_eq_true, beq_iff_eq, bne_iff_ne] at h
    omega
  case isFalse h =>
    simp only [Bool.and_eq_true, Bool.or_eq_true, beq_iff_eq, bne_iff_ne] at h
    omega

/-- No month but February needs the year. -/
theorem daysInMonth_of_ne {m : Nat} (h : m ≠ 2) (y : Int) : daysInMonth y m = daysInMonth 1 m := by
  unfold daysInMonth
  split
  · exact absurd rfl h
  all_goals rfl

theorem daysInMonth_february (y : Int) :
    (daysInMonth y 2 : Int) = 28 + if isLeapYear y then 1 else 0 := by
  rw [daysInMonth]
  split <;> rfl

namespace Date

theorem daysBeforeMonth_succ {m : Nat} (h1 : 1 ≤ m) (h12 : m ≤ 12) (h2 : m ≠ 2) (y : Int) :
    daysBeforeMonth (m % 12 + 1) = daysBeforeMonth m + daysInMonth y m := by
  rw [daysInMonth_of_ne h2]
  interval_cases m <;> first | rfl | exact absurd rfl h2

/-- The day after has the next number. -/
theorem dayNumber_next (d : Date) : d.next.dayNumber = d.dayNumber + 1 := by
  have hday := d.day_le
  have hmonth := d.month_le
  unfold next
  split
  case isTrue =>
    simp only [dayNumber]
    push_cast
    omega
  case isFalse hlast =>
    have hday' : d.day = daysInMonth d.year d.month := by omega
    by_cases h2 : d.month = 2
    · -- the leap day, if there is one, ends the year that began in March
      have hleap := leapDays_succ d.year
      have hfebruary := daysInMonth_february d.year
      rw [h2] at hday'
      rw [dif_pos (by omega)]
      simp only [dayNumber, h2, hday', hfebruary, daysBeforeMonth]
      push_cast
      omega
    · have hbefore := daysBeforeMonth_succ d.month_pos hmonth h2 d.year
      split
      case isTrue hlt =>
        rw [Nat.mod_eq_of_lt hlt, ← hday'] at hbefore
        simp only [dayNumber, hbefore]
        push_cast
        omega
      case isFalse hge =>
        have h12 : d.month = 12 := by omega
        rw [← hday', h12, Nat.mod_self, Nat.zero_add] at hbefore
        simp only [dayNumber, h12, hbefore]
        push_cast
        omega

/-- The day before is the one that the day follows. -/
theorem next_previous (d : Date) : d.previous.next = d := by
  obtain ⟨year, month, day, hfirst, hmonth, hpos, hday⟩ := d
  by_cases h1 : 1 < day
  · have hlt : day - 1 < daysInMonth year month := by omega
    simp only [previous, next, h1, hlt, dif_pos, Nat.sub_add_cancel hpos]
  · obtain rfl : day = 1 := by omega
    by_cases hm : 1 < month
    · have hlt : month - 1 < 12 := by omega
      simp only [previous, next, lt_irrefl, hm, hlt, dif_pos, dif_neg, not_false_eq_true,
        Nat.sub_add_cancel hfirst]
    · obtain rfl : month = 1 := by omega
      have hlast : ¬ 31 < daysInMonth (year - 1) 12 := lt_irrefl 31
      simp only [previous, next, lt_irrefl, hlast, dif_neg, not_false_eq_true, sub_add_cancel]

theorem dayNumber_previous (d : Date) : d.previous.dayNumber = d.dayNumber - 1 := by
  rw [eq_sub_iff_add_eq, ← dayNumber_next, next_previous]

/-- A day is carried by the days that the minutes come to. -/
theorem dayNumber_carried (d : Date) {minutes : Int} (hlow : -1440 ≤ minutes)
    (hhigh : minutes < 2880) : (d.carried minutes).dayNumber = d.dayNumber + minutes / 1440 := by
  have hprevious := d.dayNumber_previous
  have hnext := d.dayNumber_next
  unfold carried
  split
  · omega
  · split <;> omega

/-- Days before 1 March of a year. -/
def daysBeforeYear (y : Int) : Int := 365 * y + (y / 4 - y / 100 + y / 400)

theorem daysBeforeYear_succ (y : Int) : daysBeforeYear (y + 1) =
    daysBeforeYear y + 365 + if isLeapYear (y + 1) then 1 else 0 := by
  have hleap := leapDays_succ (y + 1)
  rw [add_sub_cancel_right] at hleap
  unfold daysBeforeYear
  omega

theorem daysBeforeYear_mono : Monotone daysBeforeYear := by
  refine monotone_int_of_le_succ fun y => ?_
  have hsucc := daysBeforeYear_succ y
  split at hsucc <;> omega

/-- The year that a date is counted in, which starts in March. -/
def marchYear (d : Date) : Int := if d.month ≤ 2 then d.year - 1 else d.year

/-- Days of its year up to a date. -/
def marchDay (d : Date) : Nat := daysBeforeMonth d.month + d.day

theorem dayNumber_eq (d : Date) :
    d.dayNumber = daysBeforeYear d.marchYear + d.marchDay - 719469 := by
  simp only [dayNumber, daysBeforeYear, marchYear, marchDay]
  push_cast
  omega

/-- A date does not lie beyond its year. -/
theorem marchDay_le (d : Date) : 1 ≤ d.marchDay ∧
    daysBeforeYear d.marchYear + d.marchDay ≤ daysBeforeYear (d.marchYear + 1) := by
  have hday := d.day_le
  have hpos := d.day_pos
  refine ⟨hpos.trans (Nat.le_add_left ..), ?_⟩
  rw [daysBeforeYear_succ, marchDay, marchYear]
  by_cases h2 : d.month = 2
  · have hfebruary := daysInMonth_february d.year
    have hbefore : daysBeforeMonth 2 = 337 := rfl
    rw [h2] at hday ⊢
    rw [if_pos le_rfl, sub_add_cancel, hbefore]
    push_cast
    omega
  · have hbefore := daysBeforeMonth_succ d.month_pos d.month_le h2 d.year
    have hlast : daysBeforeMonth (d.month % 12 + 1) ≤ 337 := by
      unfold daysBeforeMonth
      omega
    push_cast
    split <;> omega

/-- The month that a day of the year is in. -/
theorem month_of_marchDay (d : Date) :
    (5 * (d.marchDay - 1) + 2) / 153 = (d.month + 9) % 12 := by
  have hday := d.day_le
  have hpos := d.day_pos
  have h1 := d.month_pos
  have h12 := d.month_le
  unfold marchDay
  by_cases h2 : d.month = 2
  · have hfebruary := daysInMonth_february d.year
    have hbefore : daysBeforeMonth 2 = 337 := rfl
    rw [h2] at hday ⊢
    rw [hbefore]
    split at hfebruary <;> omega
  · rw [daysInMonth_of_ne h2] at hday
    generalize d.month = m at *
    unfold daysBeforeMonth
    interval_cases m <;> simp only [daysInMonth] at hday <;> omega

/-- No two dates have one number. -/
theorem eq_of_dayNumber_eq {d d' : Date} (h : d.dayNumber = d'.dayNumber) : d = d' := by
  rw [dayNumber_eq, dayNumber_eq] at h
  obtain ⟨hpos, hlast⟩ := d.marchDay_le
  obtain ⟨hpos', hlast'⟩ := d'.marchDay_le
  have hyear : d.marchYear = d'.marchYear := by
    rcases lt_trichotomy d.marchYear d'.marchYear with hlt | heq | hgt
    · have hmono := daysBeforeYear_mono (Int.add_one_le_iff.mpr hlt)
      omega
    · exact heq
    · have hmono := daysBeforeYear_mono (Int.add_one_le_iff.mpr hgt)
      omega
  have hdays : d.marchDay = d'.marchDay := by
    rw [hyear] at h
    omega
  have hmonth : d.month = d'.month := by
    have hplace := d.month_of_marchDay
    rw [hdays, month_of_marchDay] at hplace
    have h1 := d.month_pos
    have h12 := d.month_le
    have h1' := d'.month_pos
    have h12' := d'.month_le
    omega
  have hday : d.day = d'.day := by
    unfold marchDay at hdays
    rw [hmonth] at hdays
    omega
  have hyear' : d.year = d'.year := by
    unfold marchYear at hyear
    rw [hmonth] at hyear
    split at hyear <;> omega
  cases d
  cases d'
  cases hyear'
  cases hmonth
  cases hday
  rfl

/-- The weekday after is the next one. -/
theorem weekday_next (d : Date) : d.next.weekday = (d.weekday + 1) % 7 := by
  unfold weekday
  rw [dayNumber_next]
  omega

end Date

/-! ## Local times -/

namespace Timestamp

/-- Local seconds since 1970 began. -/
def localSeconds (t : Timestamp) : Int := t.unixSeconds + t.offset.minutes * 60

theorem localSeconds_eq (t : Timestamp) : t.localSeconds = t.date.dayNumber * 86400 +
    (t.clock.hour * 3600 + t.clock.minute * 60 + t.clock.second : Nat) :=
  sub_add_cancel ..

/-- The local date is the one of the local day. -/
theorem dayNumber_date (t : Timestamp) : t.date.dayNumber = t.localSeconds / 86400 := by
  have hhour := t.clock.hour_lt
  have hminute := t.clock.minute_lt
  have hsecond := t.clock.second_lt
  rw [localSeconds_eq]
  omega

theorem weekday_eq (t : Timestamp) : (t.date.weekday : Int) = (t.localSeconds / 86400 + 3) % 7 := by
  rw [← dayNumber_date, Date.weekday]
  omega

theorem hour_eq (t : Timestamp) : (t.clock.hour : Int) = t.localSeconds % 86400 / 3600 := by
  have hhour := t.clock.hour_lt
  have hminute := t.clock.minute_lt
  have hsecond := t.clock.second_lt
  rw [localSeconds_eq]
  omega

/-- In UTC the timestamp denotes the instant that it denotes with its offset. -/
theorem sameInstant_toUtc (t : Timestamp) : t.toUtc.sameInstant t := by
  have hhour := t.clock.hour_lt
  have hminute := t.clock.minute_lt
  have hgt := t.offset.gt
  have hlt := t.offset.lt
  have hminutes : t.utcMinutes =
      (t.clock.hour * 60 + t.clock.minute : Nat) - t.offset.minutes := rfl
  have hdate : t.toUtc.date.dayNumber = t.date.dayNumber + t.utcMinutes / 1440 :=
    t.date.dayNumber_carried (by omega) (by omega)
  have hseconds : t.toUtc.unixSeconds = t.unixSeconds := by
    unfold unixSeconds
    rw [hdate]
    simp only [toUtc, Offset.utc]
    omega
  rw [sameInstant, hseconds, Bool.and_eq_true, beq_iff_eq, beq_iff_eq]
  exact ⟨rfl, rfl⟩

end Timestamp

end LoginForest.Time
