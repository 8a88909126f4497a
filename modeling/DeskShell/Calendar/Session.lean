import DeskShell.Calendar.Page
import DeskShell.Terminal.Dialogue

/-!
# The calendar at the prompt

The session shows one month. Commands move to another month, list events, and add, edit or delete
one event; these three ask further questions, one line each, and every answer leads either to the
next question or back to the commands. A change of the book is written to its file at once, and the
month is drawn again after each of the three whether it changed anything or not.

`Question` says what the session waits for, so that the whole session is a function of its state
and one line.
-/

set_option autoImplicit false

namespace DeskShell.Calendar

open Text Terminal Files

/-! ## The state -/

/-- What a chosen event is chosen for. -/
inductive Purpose
  | edit
  | delete
  deriving Repr, DecidableEq

def Purpose.verb : Purpose → String
  | edit => "edit"
  | delete => "delete"

/-- What the session waits for. -/
inductive Question
  | command
  /-- The date of a new event; an empty answer stands for a day of the shown month. -/
  | eventDate
  /-- The day of a new event in the shown month. -/
  | eventDay
  /-- The description of a new event. -/
  | description (date : Date)
  /-- The date of an event that exists. -/
  | existingDate (purpose : Purpose)
  /-- One of several events on a date, by their indices. -/
  | choice (purpose : Purpose) (candidates : List Nat)
  /-- Another description for the event at an index. -/
  | newDescription (index : Nat)
  deriving DecidableEq

/-- A session between two lines. -/
structure State where
  book : EventBook
  month : Month
  question : Question := .command
  deriving DecidableEq

/-- How a session looks. -/
structure Look where
  today : Date
  style : Style

/-- The shown month: its grid and its events. -/
def State.page (look : Look) (s : State) : Transcript :=
  .say (monthGrid s.month s.book (some look.today) look.style ++ monthEvents s.month s.book)

/-- The text in front of an answer. -/
def State.prompt (s : State) : String :=
  match s.question with
  | .command => "calendar> "
  | .eventDate =>
      let year := String.ofList (zeroPadded 4 s.month.year)
      let month := String.ofList (zeroPadded 2 s.month.number)
      s!"Enter date (YYYY-MM-DD) [default {year}-{month}-<day>]: "
  | .eventDay => "Enter day (1-31): "
  | .description _ => "Enter description: "
  | .existingDate purpose => s!"Enter date of event to {purpose.verb} (YYYY-MM-DD): "
  | .choice _ candidates => s!"Choice (1-{decimal candidates.length}): "
  | .newDescription _ => "Enter new description: "

/-! ## Turns -/

def State.ask (s : State) (written : Transcript) (question : Question) : Access (Turn State) :=
  pure { written, state := { s with question } }

/-- Go back to the commands without a change, after a message, and draw the month. -/
def State.unchanged (look : Look) (s : State) (message : String) : Access (Turn State) :=
  let s := { s with question := .command }
  pure { written := .sayLine message ++ s.page look, state := s }

/-- Go back to the commands with another book, after a message: write the book and draw the
month. -/
def State.changed (look : Look) (s : State) (book : EventBook) (message : String) :
    Access (Turn State) := do
  let s : State := { s with book, question := .command }
  let saved ← book.save
  let trouble : Transcript :=
    match saved with
    | .ok () => .nothing
    | .error _ => .sayLine s!"Failed to write events to {EventBook.path}"
  pure { written := .sayLine message ++ trouble ++ s.page look, state := s }

/-! ## Adding -/

/-- Ask for the description of a new event, if its date exists. -/
def State.describeNew (look : Look) (s : State) : Option Date → Access (Turn State)
  | some date => s.ask .nothing (.description date)
  | none => s.unchanged look "Invalid day for the specified month/year."

def State.hearEventDate (look : Look) (s : State) (line : String) : Access (Turn State) :=
  if line = "" then s.ask .nothing .eventDay
  else
    match DateParts.ofText? line with
    | some parts => s.describeNew look parts.toDate?
    | none => s.unchanged look "Invalid date format."

def State.hearEventDay (look : Look) (s : State) (line : String) : Access (Turn State) :=
  s.describeNew look (s.month.day? ((leadingInt? line.toList).getD 0).toNat)

def State.hearDescription (look : Look) (s : State) (date : Date) (line : String) :
    Access (Turn State) :=
  if line = "" then s.unchanged look "Description cannot be empty."
  else
    s.changed look (s.book.add (.clipped date line))
      s!"Event added for {(DateParts.ofDate date).text}."

/-! ## Editing and deleting -/

/-- The event at an index has been chosen: ask for its new description, or erase it. -/
def State.chosen (look : Look) (s : State) (purpose : Purpose) (index : Nat) :
    Access (Turn State) :=
  match purpose with
  | .edit =>
      let current : Transcript :=
        match s.book.get? index with
        | some event => .sayLine s!"Current description: {event.description}"
        | none => .nothing
      s.ask current (.newDescription index)
  | .delete => s.changed look (s.book.erase index) "Event removed."

def menu (events : List Event) : String :=
  String.join ((events.zipIdx 1).map fun (event, n) => s!"  {decimal n}) {event.description}\n")

/-- The answer to the question for the date of an event: the event itself if it is the only one on
its date, else a choice. -/
def State.hearExistingDate (look : Look) (s : State) (purpose : Purpose) (line : String) :
    Access (Turn State) :=
  match DateParts.ofText? line with
  | none => s.unchanged look "Invalid date format."
  | some parts =>
      match (parts.toDate?.map s.book.indicesOn).getD [] with
      | [] => s.unchanged look s!"No events found on {parts.text}."
      | [index] => s.chosen look purpose index
      | candidates =>
          s.ask (.sayLine s!"Select event to {purpose.verb}:"
              ++ .say (menu (candidates.filterMap s.book.get?)))
            (.choice purpose candidates)

/-- The candidate that a number from 1 on picks. -/
def pick? (candidates : List Nat) (line : String) : Option Nat := do
  let n ← leadingInt? line.toList
  if 1 ≤ n then candidates[(n - 1).toNat]? else none

def State.hearChoice (look : Look) (s : State) (purpose : Purpose) (candidates : List Nat)
    (line : String) : Access (Turn State) :=
  match pick? candidates line with
  | some index => s.chosen look purpose index
  | none => s.unchanged look "Invalid selection."

def State.hearNewDescription (look : Look) (s : State) (index : Nat) (line : String) :
    Access (Turn State) :=
  if line = "" then s.unchanged look "Description cannot be empty."
  else s.changed look (s.book.describe index line) "Event updated."

/-! ## Commands -/

def State.reply (s : State) (written : Transcript) : Access (Turn State) :=
  pure { written, state := s }

/-- Show another month, if there is one. -/
def State.turnTo (look : Look) (s : State) : Option Month → Access (Turn State)
  | some month =>
      let s := { s with month }
      s.reply (s.page look)
  | none => s.reply (.sayLine "Invalid month/year combination." ++ s.page look)

/-- The month that a month and a year stand for. -/
def monthOfWords? (month year : String) : Option Month := do
  let number ← monthOfText? month
  let year ← leadingInt? year.toList
  Month.ofParts? year number

/-- Go to a month by its name or number and its year. -/
def State.goTo (look : Look) (s : State) : List String → Access (Turn State)
  | month :: year :: _ =>
      match monthOfWords? month year with
      | some target =>
          let s := { s with month := target }
          s.reply (s.page look)
      | none => s.reply (.sayLine "Invalid month/year combination.")
  | _ => s.reply (.sayLine "Usage: goto <month> <year>")

/-- Start to choose an event, if there is any. -/
def State.choose (look : Look) (s : State) (purpose : Purpose) : Access (Turn State) :=
  if s.book.isEmpty then s.unchanged look s!"No events to {purpose.verb}."
  else s.ask .nothing (.existingDate purpose)

/-- List the events of the shown month, of one of its days, or of a date. -/
def State.view (s : State) : List String → Transcript
  | [] => .say (monthEvents s.month s.book)
  | word :: _ =>
      match DateParts.ofText? word with
      | some parts => .say (dayEvents parts s.book)
      | none =>
          if word.toList.head?.any Char.isDigit then
            match (leadingInt? word.toList).bind fun n => s.month.day? n.toNat with
            | some date => .say (dayEvents (DateParts.ofDate date) s.book)
            | none => .sayLine "Invalid day for the current month."
          else
            .sayLine <| "Unrecognized view argument. "
              ++ "Use 'view', 'view <day>', or 'view YYYY-MM-DD'."

def help : String :=
  "Commands: add, edit, delete, view [day], next, prev, goto <month> <year>, help, exit"

def State.hearCommand (look : Look) (s : State) (line : String) : Access (Turn State) :=
  match (words line.toList).map String.ofList with
  | [] => s.reply .nothing
  | command :: arguments =>
      match lower command with
      | "exit" => pure { written := .sayLine "Exiting calendar.", state := s, last := true }
      | "help" => s.reply (.sayLine help)
      | "next" => s.turnTo look s.month.next
      | "prev" => s.turnTo look s.month.prev
      | "goto" => s.goTo look arguments
      | "add" => s.ask .nothing .eventDate
      | "edit" => s.choose look .edit
      | "delete" => s.choose look .delete
      | "view" => s.reply (s.view arguments)
      | unknown => s.reply (.sayLine s!"Unknown command: {unknown}")

/-! ## The session -/

def State.hear (look : Look) (s : State) (line : String) : Access (Turn State) :=
  match s.question with
  | .command => s.hearCommand look line
  | .eventDate => s.hearEventDate look line
  | .eventDay => s.hearEventDay look line
  | .description date => s.hearDescription look date line
  | .existingDate purpose => s.hearExistingDate look purpose line
  | .choice purpose candidates => s.hearChoice look purpose candidates line
  | .newDescription index => s.hearNewDescription look index line

/-- What is written when the input ends: a question is cancelled and leads back to the commands,
where the end of the input ends the session. -/
def State.atEnd (look : Look) (s : State) : Transcript :=
  let goodbye : Transcript := .sayLine "\nInput error. Exiting calendar."
  match s.question with
  | .command => goodbye
  | _ =>
      let s := { s with question := .command }
      .sayLine "Input cancelled." ++ s.page look ++ .say s.prompt ++ goodbye

def dialogue (look : Look) : Dialogue State where
  prompt := State.prompt
  hear := State.hear look
  atEnd s := pure (s.atEnd look)

/-- The opening of a session: the book is loaded, and the current month is shown. -/
def opening (look : Look) : Access (Turn State) := do
  let book ← EventBook.load
  let s : State := { book, month := .containing look.today }
  pure
    { written := .sayLine "Calendar (type 'help' for commands, 'exit' to return)" ++ s.page look
      state := s }

end DeskShell.Calendar
