import DeskShell.Calendar.DateText
import DeskShell.Calendar.Month
import DeskShell.Files.Access
import DeskShell.Text.Line

/-!
# The book of events

Events are kept in the order in which they were added. In the file each stands on a line of its
own, the date, a bar and the description; lines that are no event are passed over.
-/

set_option autoImplicit false

namespace DeskShell.Calendar

open Text

def maxDescription : Nat := 127

/-- Something that happens on a date. -/
structure Event where
  date : Date
  description : String
  deriving DecidableEq

def clip (description : String) : String :=
  String.ofList (description.toList.take maxDescription)

namespace Event

def clipped (date : Date) (description : String) : Event := ⟨date, clip description⟩

/-- The characters of the line for an event, without its end. -/
def chars (e : Event) : List Char :=
  (DateParts.ofDate e.date).chars ++ '|' :: e.description.toList

/-- The longest signed numeral at the start of a text, as it stands there, and the rest. -/
def readNumeral (cs : List Char) : List Char × List Char :=
  match cs with
  | '-' :: rest => ('-' :: rest.takeWhile Char.isDigit, rest.dropWhile Char.isDigit)
  | '+' :: rest => ('+' :: rest.takeWhile Char.isDigit, rest.dropWhile Char.isDigit)
  | _ => (cs.takeWhile Char.isDigit, cs.dropWhile Char.isDigit)

/-- The event that a line stands for: after blanks, year, month and day with `-` between them, a
bar, and a description that is not empty. Each number may have a sign; only the year may be
negative. -/
def ofLine? (line : List Char) : Option Event :=
  match readNumeral (trimStart line) with
  | (year, '-' :: rest) =>
      match readNumeral rest with
      | (month, '-' :: rest) =>
          match readNumeral rest with
          | (day, '|' :: description) => do
              let date ← Date.ofParts? (← int? year) (← nat? month) (← nat? day)
              if description.isEmpty then none
              else some (clipped date (String.ofList description))
          | _ => none
      | _ => none
  | _ => none

end Event

/-- Events in the order in which they were added. -/
structure EventBook where
  events : List Event := []
  deriving DecidableEq

namespace EventBook

/-! ## Text -/

def ofText (text : String) : EventBook := ⟨(lines text.toList).filterMap Event.ofLine?⟩

/-- The book as a text, one line an event. -/
def toText (b : EventBook) : String :=
  String.ofList (b.events.flatMap fun e => e.chars ++ ['\n'])

/-! ## Events of a day, of a month -/

def size (b : EventBook) : Nat := b.events.length

def isEmpty (b : EventBook) : Bool := b.events.isEmpty

def get? (b : EventBook) (index : Nat) : Option Event := b.events[index]?

/-- The indices of the events on a date, in order. -/
def indicesOn (b : EventBook) (d : Date) : List Nat :=
  (b.events.zipIdx.filter fun e => e.1.date == d).map (·.2)

def hasEventOn (b : EventBook) (d : Date) : Bool := b.events.any fun e => e.date == d

def inMonth (b : EventBook) (m : Month) : List Event := b.events.filter fun e => m.contains e.date

/-! ## Changes -/

/-- The book with one more event at its end. -/
def add (b : EventBook) (e : Event) : EventBook := ⟨b.events ++ [e]⟩

/-- The book with another description for the event at an index, cut to its largest length. -/
def describe (b : EventBook) (index : Nat) (description : String) : EventBook :=
  ⟨b.events.modify index fun e => { e with description := clip description }⟩

def erase (b : EventBook) (index : Nat) : EventBook := ⟨b.events.eraseIdx index⟩

@[simp] theorem events_add (b : EventBook) (e : Event) : (b.add e).events = b.events ++ [e] := rfl

@[simp] theorem events_describe (b : EventBook) (index : Nat) (description : String) :
    (b.describe index description).events =
      b.events.modify index fun e => { e with description := clip description } := rfl

@[simp] theorem events_erase (b : EventBook) (index : Nat) :
    (b.erase index).events = b.events.eraseIdx index := rfl

/-! ## The file -/

def path : String := "home/user/events.txt"

/-- The book in the file; a file that cannot be read holds no events. -/
def load : Files.Access EventBook := do
  match ← Files.Access.readText path with
  | .ok text => pure (ofText text)
  | .error _ => pure {}

def save (b : EventBook) : Files.Access (Except Files.Sandbox.Refusal Unit) :=
  Files.Access.writeText path b.toText

end EventBook

end DeskShell.Calendar
