import DeskShell.Files.Tree
import DeskShell.Settings.Basic
import DeskShell.Settings.Words
import DeskShell.Text.Line
import DeskShell.Text.Numeral

/-!
# The settings file

A line `/set name=value` or `/set name value` changes a setting; the value is all that follows, its
words separated by single blanks. All other lines are passed over. A line that cannot be followed
is reported by its number, and the lines behind it still count.
-/

set_option autoImplicit false

namespace DeskShell.Settings

open Text

/-! ## Lines -/

/-- The words behind `/set`, on a line that starts so. -/
def arguments? (line : List Char) : Option (List (List Char)) :=
  match trim line with
  | '/' :: rest =>
      let (command, arguments) := firstWord rest
      if command = ['s', 'e', 't'] then some (words (trim arguments)) else none
  | _ => none

def joined (ws : List (List Char)) : List Char := [' '].intercalate ws

/-- The name and the value that the words stand for: the name ends at the first `=`, or else with
the first word. -/
def assignment? : List (List Char) → Option (String × String)
  | [] => none
  | first :: others =>
      let name := first.takeWhile (· != '=')
      let value :=
        match first.dropWhile (· != '=') with
        | _ :: start => joined (start :: others)
        | [] => joined others
      if name.isEmpty then none else some (String.ofList name, String.ofList value)

/-- Do what a line asks for. -/
def follow (s : Settings) (line : List Char) : Settings × Except Fault Unit :=
  match arguments? line with
  | none => (s, .ok ())
  | some ws =>
      match assignment? ws with
      | none => (s, .error .missingName)
      | some (name, value) => s.set name value

/-! ## Texts -/

/-- A fault with the number of its line, from 1. -/
structure Notice where
  line : Nat
  fault : Fault
  deriving Repr, DecidableEq

def Notice.text (n : Notice) : String := s!"line {decimal n.line}: {n.fault.message}"

/-- The settings after lines that are numbered from `number` on, with the notices on them. -/
def followAll (s : Settings) (number : Nat) : List (List Char) → Settings × List Notice
  | [] => (s, [])
  | line :: rest =>
      match s.follow line with
      | (s', .ok ()) => s'.followAll (number + 1) rest
      | (s', .error fault) =>
          let (last, notices) := s'.followAll (number + 1) rest
          (last, ⟨number, fault⟩ :: notices)

/-- The settings that a text holds, with the notices on it. -/
def ofText (text : String) : Settings × List Notice := followAll {} 1 (lines text.toList)

/-- The settings in a file, with the notices on it. -/
def ofFile (t : Files.FileTree) (path : String) :
    Except Files.Fault (Settings × List Notice) := do
  return ofText (← t.readText path)

end DeskShell.Settings
