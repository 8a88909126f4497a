import DeskShell.Calendar.Date
import DeskShell.Text.Numeral

/-!
# Months

The months that the calendar can show. A month is asked for by year and number from year 1 on; the
month that contains a date may lie before that. `next` and `prev` step through the months, `next`
up to the last one of the calendar, `prev` down to January of year 1.
-/

set_option autoImplicit false

namespace DeskShell.Calendar

/-- A month of the calendar. -/
structure Month where
  year : Int
  /-- The month of the year, from 1. -/
  number : Nat
  isMonth : firstYear ≤ year ∧ year ≤ lastYear ∧ 1 ≤ number ∧ number ≤ 12
  deriving DecidableEq

namespace Month

/-- The month with a year and a number, from year 1 on. -/
def ofParts? (year : Int) (number : Nat) : Option Month :=
  if h : 1 ≤ year ∧ year ≤ lastYear ∧ 1 ≤ number ∧ number ≤ 12 then
    some ⟨year, number, by unfold firstYear; omega⟩
  else none

def containing (d : Date) : Month :=
  ⟨d.year, d.month, d.isDate.1, d.isDate.2.1, d.isDate.2.2.1, d.isDate.2.2.2.1⟩

def name (m : Month) : String := monthNames.getD (m.number - 1) ""

def days (m : Month) : Nat := daysInMonth m.year m.number

/-- A day of the month, if it has that many. -/
def day? (m : Month) (day : Nat) : Option Date := Date.ofParts? m.year m.number day

def firstDay (m : Month) : Date :=
  ⟨m.year, m.number, 1, m.isMonth.1, m.isMonth.2.1, m.isMonth.2.2.1, m.isMonth.2.2.2,
    Nat.le_refl 1, daysInMonth_pos m.year m.number⟩

/-- The weekday of the first day, counted from Monday, which is 0. -/
def firstWeekday (m : Month) : Nat := m.firstDay.weekday

def contains (m : Month) (d : Date) : Bool := d.year == m.year && d.month == m.number

/-- The month after this one, but for the last one of the calendar. -/
def next (m : Month) : Option Month :=
  if h : m.number < 12 then some ⟨m.year, m.number + 1, by have := m.isMonth; omega⟩
  else if h : m.year < lastYear then some ⟨m.year + 1, 1, by have := m.isMonth; omega⟩
  else none

/-- The month before this one, from year 1 on. -/
def prev (m : Month) : Option Month :=
  if m.number = 1 then ofParts? (m.year - 1) 12 else ofParts? m.year (m.number - 1)

/-- The name and the year. -/
def text (m : Month) : String := m.name ++ " " ++ String.ofList (Text.signed m.year)

theorem contains_iff {m : Month} {d : Date} : m.contains d = true ↔ m.day? d.day = some d := by
  rw [day?, Date.ofParts?_eq_some_iff]
  simp [contains]

end Month

end DeskShell.Calendar
