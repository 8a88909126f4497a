import DeskShell.Calendar.EventBook
import DeskShell.Terminal.Style

/-!
# Pages of the calendar

A month as a grid of days, a week to a line, Monday first; and lists of the events of a month and of
a day. A day with events has a star in the grid, and the current day stands out.
-/

set_option autoImplicit false

namespace DeskShell.Calendar

open Text Terminal

/-! ## The grid -/

/-- A number brought to two characters by a blank in front. -/
def twoColumns (n : Nat) : String := String.ofList (padStart 2 ' ' (digits n))

/-- The cell of a day: its number, and a star if there are events on it. -/
def cell (m : Month) (b : EventBook) (today : Option Date) (style : Style) (day : Nat) : String :=
  let date := m.day? day
  let marked := date.any b.hasEventOn
  let plain := twoColumns day ++ (if marked then "*" else " ")
  let shown := if marked then style.eventDay plain else plain
  if date.isSome && date == today then style.today shown else shown

/-- What follows the cell of a day: the end of the line after a Sunday and after the last day. -/
def separator (m : Month) (day : Nat) : String :=
  if (m.firstWeekday + day - 1) % 7 = 6 || day = m.days then "\n" else " "

/-- The title, the weekdays, and the days of a month. -/
def monthGrid (m : Month) (b : EventBook) (today : Option Date) (style : Style) : String :=
  let cells := (List.range' 1 m.days).map fun day => cell m b today style day ++ separator m day
  "\n" ++ m.text ++ "\nMo Tu We Th Fr Sa Su\n"
    ++ String.join (List.replicate m.firstWeekday "   ") ++ String.join cells ++ "\n"

/-! ## Lists of events -/

def monthLine (e : Event) : String :=
  "  " ++ String.ofList (zeroPadded 2 e.date.day) ++ ": " ++ e.description ++ "\n"

def monthEvents (m : Month) (b : EventBook) : String :=
  let events := b.inMonth m
  s!"Events for {m.text}:\n"
    ++ if events.isEmpty then "  (no events)\n" else String.join (events.map monthLine)

def dayEvents (p : DateParts) (b : EventBook) : String :=
  match (p.toDate?.map b.indicesOn).getD [] with
  | [] => s!"No events on {p.text}.\n"
  | indices =>
      s!"Events on {p.text}:\n"
        ++ String.join ((indices.filterMap b.get?).map fun e => "  - " ++ e.description ++ "\n")

end DeskShell.Calendar
