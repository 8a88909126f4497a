import DeskShell.Calendar.Date
import Mathlib.Data.Nat.Init
import Mathlib.Logic.Basic

/-!
# The day count

The days of the proleptic Gregorian calendar can be counted without a table of months and without a
rule for leap years: if years are taken from March on, the leap day is the last one of its year, and
the months before it have their lengths in a fixed rhythm (`marchCount`). The calendar agrees with
this count. A month has as many days as lie between its first day and the first day of the month
after it (`marchCount_succ_month`), dates are counted alike (`Date.dayNumber_eq`), and so the
weekdays of the calendar are those of the count (`Date.weekday_eq`).
-/

set_option autoImplicit false

namespace DeskShell.Calendar

/-! ## Counting from March -/

/-- The number of days from 1 March of year 0 up to a day of a month.

From March on the months have 31, 30, 31, 30 and 31 days, over and over: 153 days in five months,
and `(153 * i + 2) / 5` days in the first `i` months. January and February are the last two months
of the year before. Month 13 is January of the year after. -/
def marchCount (year : Int) (month day : Nat) : Int :=
  let y := if month ≤ 2 then year - 1 else year
  365 * y + y / 4 - y / 100 + y / 400 + ((153 * ((month + 9) % 12) + 2) / 5 + day : Nat) - 1

theorem marchCount_day (year : Int) (month day : Nat) :
    marchCount year month day = marchCount year month 1 + day - 1 := by
  simp only [marchCount]
  omega

theorem marchCount_january (year : Int) (day : Nat) :
    marchCount year 13 day = marchCount (year + 1) 1 day := by
  simp only [marchCount]
  simp

theorem isLeapYear_iff {year : Int} :
    isLeapYear year = true ↔ (year % 4 = 0 ∧ year % 100 ≠ 0) ∨ year % 400 = 0 := by
  simp [isLeapYear]

def leapDays (year : Int) : Nat := if isLeapYear year = true then 1 else 0

/-- A leap year has a day more: the count from March shows it in the step from one year to the
next. -/
theorem leapDays_eq (year : Int) :
    year / 4 - year / 100 + year / 400
      = (year - 1) / 4 - (year - 1) / 100 + (year - 1) / 400 + leapDays year := by
  rw [leapDays]
  split
  · next hleap =>
      rw [isLeapYear_iff] at hleap
      omega
  · next hleap =>
      rw [isLeapYear_iff] at hleap
      omega

theorem daysInMonth_february (year : Int) : daysInMonth year 2 = 28 + leapDays year := by
  rw [leapDays]
  cases hleap : isLeapYear year <;> simp [daysInMonth, hleap, monthLengths]

theorem daysInMonth_of_ne {month : Nat} (h : 1 ≤ month) (hfebruary : month ≠ 2) (year : Int) :
    daysInMonth year month = monthLengths.getD (month - 1) 30 := by
  rw [daysInMonth, if_neg (fun hleap => hfebruary hleap.1), if_neg (by omega)]

/-! ## The lengths of the months -/

/-- The table of months has the rhythm of the months from March on, up to the end of January. -/
theorem rhythm_of_monthLengths : ∀ month < 13, 1 ≤ month → month ≠ 2 →
    (153 * ((month + 1 + 9) % 12) + 2) / 5
      = (153 * ((month + 9) % 12) + 2) / 5 + monthLengths.getD (month - 1) 30 := by decide

/-- **The length of a month** is the number of days from its first day to the first day of the month
after it. -/
theorem marchCount_succ_month (year : Int) {month : Nat} (h : 1 ≤ month) (h' : month ≤ 12) :
    marchCount year (month + 1) 1 = marchCount year month 1 + daysInMonth year month := by
  by_cases hfebruary : month = 2
  · -- the leap day, and the step to the next year of the count
    subst hfebruary
    have hleap := leapDays_eq year
    rw [daysInMonth_february, marchCount, marchCount, if_neg (by decide), if_pos (by decide)]
    omega
  · have hrhythm := rhythm_of_monthLengths month (by omega) h hfebruary
    have hyear : (if month + 1 ≤ 2 then year - 1 else year)
        = if month ≤ 2 then year - 1 else year := if_congr (by omega) rfl rfl
    simp only [marchCount, daysInMonth_of_ne h hfebruary, hyear, hrhythm]
    omega

/-! ## The dates -/

/-- The days before a month, by years and months, are those of the count from March. -/
theorem daysBefore_eq (year : Int) {month : Nat} (h : 1 ≤ month) (h' : month ≤ 13) :
    Date.daysBeforeYear year + Date.daysBeforeMonth year month = marchCount year month 1 - 306 := by
  induction month, h using Nat.le_induction with
  | base =>
      simp only [Date.daysBeforeYear, Date.daysBeforeMonth, marchCount]
      simp only [Nat.reduceAdd, Nat.reduceMod]
      omega
  | succ month hmonth ih =>
      have hbefore : Date.daysBeforeMonth year (month + 1)
          = Date.daysBeforeMonth year month + daysInMonth year month := by
        obtain ⟨m, rfl⟩ := Nat.exists_eq_add_of_le' hmonth
        rfl
      have ih := ih (by omega)
      have hstep := marchCount_succ_month year hmonth (by omega)
      rw [hbefore]
      omega

namespace Date

/-- **Dates are counted** as the count from March says: 1 January of year 1 is its day 306. -/
theorem dayNumber_eq (d : Date) : d.dayNumber = marchCount d.year d.month d.day - 306 := by
  obtain ⟨-, -, hmonth, hmonth', hday, -⟩ := d.isDate
  have hbefore := daysBefore_eq d.year hmonth (by omega)
  have hcount := marchCount_day d.year d.month d.day
  rw [dayNumber]
  omega

/-- **The weekdays** follow each other through the whole count; 1 March of year 0 is a Wednesday. -/
theorem weekday_eq (d : Date) : (d.weekday : Int) = (marchCount d.year d.month d.day + 2) % 7 := by
  have hnumber := d.dayNumber_eq
  rw [weekday]
  omega

end Date

end DeskShell.Calendar
