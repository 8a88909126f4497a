/-!
# Dates

Days of the proleptic Gregorian calendar in the years from -262143 to 262142. A `Date` always
exists in the calendar; `Date.ofParts?` refuses all other years, months and days.

Weekdays come from a count of days: `dayNumber` counts from the first of January of year 1, a
Monday, by years, months and days.
-/

set_option autoImplicit false

namespace DeskShell.Calendar

/-! ## Years and months -/

/-- Every fourth year is a leap year, but of the centuries only every fourth. -/
def isLeapYear (year : Int) : Bool :=
  (year % 4 == 0 && year % 100 != 0) || year % 400 == 0

/-- The lengths of the months of a year that is no leap year. -/
def monthLengths : List Nat := [31, 28, 31, 30, 31, 30, 31, 31, 30, 31, 30, 31]

/-- The number of days of a month, counted from 1. A number that is no month has thirty. -/
def daysInMonth (year : Int) (month : Nat) : Nat :=
  if month = 2 ∧ isLeapYear year then 29
  else if month = 0 then 30
  else monthLengths.getD (month - 1) 30

def monthNames : List String :=
  ["January", "February", "March", "April", "May", "June", "July", "August", "September",
   "October", "November", "December"]

def firstYear : Int := -262143

def lastYear : Int := 262142

theorem daysInMonth_pos (year : Int) (month : Nat) : 0 < daysInMonth year month := by
  unfold daysInMonth monthLengths
  split
  · decide
  · split
    · decide
    · rename_i h
      obtain ⟨m, rfl⟩ : ∃ m, month = m + 1 := ⟨month - 1, by omega⟩
      match m with
      | 0 | 1 | 2 | 3 | 4 | 5 | 6 | 7 | 8 | 9 | 10 | 11 => decide
      | _ + 12 => simp

/-! ## Dates -/

/-- Whether a year, a month and a day make a date. -/
def IsDate (year : Int) (month day : Nat) : Prop :=
  firstYear ≤ year ∧ year ≤ lastYear ∧ 1 ≤ month ∧ month ≤ 12 ∧ 1 ≤ day ∧
    day ≤ daysInMonth year month

instance (year : Int) (month day : Nat) : Decidable (IsDate year month day) := by
  unfold IsDate
  infer_instance

structure Date where
  year : Int
  month : Nat
  day : Nat
  isDate : IsDate year month day
  deriving DecidableEq

namespace Date

def ofParts? (year : Int) (month day : Nat) : Option Date :=
  if h : IsDate year month day then some ⟨year, month, day, h⟩ else none

/-- A date is made from parts exactly where they make a date, and has these parts. -/
theorem ofParts?_eq_some_iff {year : Int} {month day : Nat} {d : Date} :
    ofParts? year month day = some d ↔ d.year = year ∧ d.month = month ∧ d.day = day := by
  unfold ofParts?
  constructor
  · intro h
    split at h
    · cases h
      exact ⟨rfl, rfl, rfl⟩
    · simp at h
  · rintro ⟨rfl, rfl, rfl⟩
    simp [d.isDate]

/-! ## Counting days -/

/-- The number of days of the months of a year before a month. -/
def daysBeforeMonth (year : Int) : Nat → Nat
  | 0 | 1 => 0
  | m + 2 => daysBeforeMonth year (m + 1) + daysInMonth year (m + 1)

/-- The number of days before a year, from the first of January of year 1. -/
def daysBeforeYear (year : Int) : Int :=
  let y := year - 1
  365 * y + y / 4 - y / 100 + y / 400

/-- The number of days from the first of January of year 1 up to a date. -/
def dayNumber (d : Date) : Int :=
  daysBeforeYear d.year + daysBeforeMonth d.year d.month + (d.day - 1 : Nat)

/-- The weekday of a date, counted from Monday, which is 0. The first of January of year 1 is a
Monday. -/
def weekday (d : Date) : Nat := (d.dayNumber % 7).toNat

end Date

end DeskShell.Calendar
