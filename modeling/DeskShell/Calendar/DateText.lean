import DeskShell.Calendar.Date
import DeskShell.Text.Blank
import DeskShell.Text.Letter
import DeskShell.Text.Numeral

/-!
# Dates and months as text

Dates are written `YYYY-MM-DD` and read more freely: after blanks, with an optional sign, without
leading zeros, and with any text behind them. What has been read is only in range (`DateParts`); it
need not be a day of the calendar. A month is read from its number or from the start of its name.
-/

set_option autoImplicit false

namespace DeskShell.Calendar

open Text

/-! ## Writing -/

/-- A year, a month and a day that may or may not make a date. -/
structure DateParts where
  year : Int
  month : Nat
  day : Nat
  deriving Repr, DecidableEq

namespace DateParts

def toDate? (p : DateParts) : Option Date := Date.ofParts? p.year p.month p.day

def ofDate (d : Date) : DateParts := ⟨d.year, d.month, d.day⟩

@[simp] theorem toDate?_ofDate (d : Date) : (ofDate d).toDate? = some d :=
  Date.ofParts?_eq_some_iff.2 ⟨rfl, rfl, rfl⟩

/-- The characters of `YYYY-MM-DD`; years below zero or above 9999 take what room they need. -/
def chars (p : DateParts) : List Char :=
  zeroPadded 4 p.year ++ '-' :: zeroPadded 2 p.month ++ '-' :: zeroPadded 2 p.day

def text (p : DateParts) : String := String.ofList p.chars

/-! ## Reading -/

/-- A number of at most `most` digits at the start of a text that is followed by `-`, and the rest
behind it. -/
def readField (most : Nat) (cs : List Char) : Option (Nat × List Char) :=
  let ds := cs.takeWhile Char.isDigit
  match cs.dropWhile Char.isDigit with
  | '-' :: rest => if ds ≠ [] ∧ ds.length ≤ most then some (value ds, rest) else none
  | _ => none

/-- The day at the start of a text: two decimal digits where there are two, of any script, or one.
It counts only if all of them are ASCII. -/
def readDay : List Char → Option Nat
  | [] => none
  | [a] => if a.isDigit then some (value [a]) else none
  | a :: b :: _ =>
      if !a.isDigit then none
      else if b.isDigit then some (value [a, b])
      else if isDecimalDigit b then none
      else some (value [a])

/-- The date at the start of a text, with its parts in range. -/
def read? (cs : List Char) : Option DateParts := do
  let (negative, rest) := takeSign (trimStart cs)
  let (year, rest) ← readField 9 rest
  let (month, rest) ← readField 2 rest
  let day ← readDay rest
  if !negative && 1 ≤ year && 1 ≤ month && month ≤ 12 && 1 ≤ day && day ≤ 31 then
    some ⟨year, month, day⟩
  else none

/-- The date at the start of a text. -/
def ofText? (s : String) : Option DateParts := read? s.toList

end DateParts

/-! ## Months -/

/-- The first month whose name starts with a word, in any case. -/
def monthByName? (word : List Char) : Option Nat :=
  let word := word.map Char.toLower
  (monthNames.findIdx? fun name => word.isPrefixOf (name.toList.map Char.toLower)).map (· + 1)

/-- The month that a word stands for: a number of one or two characters, or the start of a name. -/
def monthOfText? (s : String) : Option Nat :=
  let byNumber : Option Nat :=
    if s.utf8ByteSize ≤ 2 && (s.toList.head?.any Char.isDigit) then
      (leadingInt? s.toList).bind fun n => if 1 ≤ n ∧ n ≤ 12 then some n.toNat else none
    else none
  if s = "" then none else byNumber.orElse fun _ => monthByName? s.toList

end DeskShell.Calendar
