import DeskShell.Text.Blank
import DeskShell.Text.Extent
import DeskShell.Text.Letter
import DeskShell.Text.Numeral

/-!
# What is logged

Messages have a target, such as the part of a program that writes them, and a level. A directive
text names levels for targets: `target=level`, a level alone, or a target alone, which logs all of
its messages; several directives stand between commas. Of the directives whose target starts the
target of a message the most specific one decides, which is the longest.

A program passes the text of its directives on (`Program.Host.startLog`); reading it is up to the
outer layer.
-/

set_option autoImplicit false

namespace DeskShell.Logging

open Text

/-! ## Levels -/

/-- How much is logged, from nothing to everything. -/
inductive Level
  | off
  | error
  | warn
  | info
  | debug
  | trace
  deriving Repr, DecidableEq

namespace Level

def all : List Level := [off, error, warn, info, debug, trace]

def rank : Level → Nat
  | off => 0
  | error => 1
  | warn => 2
  | info => 3
  | debug => 4
  | trace => 5

def name : Level → String
  | off => "off"
  | error => "error"
  | warn => "warn"
  | info => "info"
  | debug => "debug"
  | trace => "trace"

/-- The level with a name, in any case, or with a rank; the empty word stands for errors. -/
def ofWord? (word : List Char) : Option Level :=
  if word.isEmpty then some error
  else
    match (nat? word).bind fun n => all[n]? with
    | some level => some level
    | none => all.find? fun level => sameLetters level.name (String.ofList word)

end Level

/-! ## Directives -/

inductive Fault
  | tooManyEquals
  | tooManyFieldLists
  | openFieldList
  | unknownLevel
  deriving Repr, DecidableEq

def Fault.message : Fault → String
  | tooManyEquals =>
      "invalid filter directive: too many '=' in filter directive, expected 0 or 1"
  | tooManyFieldLists =>
      "invalid filter directive: too many '[\x7b' in filter directive, expected 0 or 1"
  | openFieldList =>
      "invalid filter directive: expected fields list to end with '\x7d]'"
  | unknownLevel =>
      "error parsing level filter: expected one of \"off\", \"error\", \"warn\", \"info\", "
        ++ "\"debug\", \"trace\", or a number 0-5"

/-- A level for a target, or for all targets. -/
structure Directive where
  target : Option (List Char)
  /-- Whether it asks for fields of a message; such a directive decides on no target alone. -/
  hasFields : Bool := false
  level : Level
  deriving Repr, DecidableEq

/-- The character that opens a list of fields, behind a bracket. -/
def openBrace : Char := '\x7b'

/-- The character that closes a list of fields, before a bracket. -/
def closeBrace : Char := '\x7d'

/-- The pieces of a text between the places where one character follows another. -/
def piecesAt (first second : Char) : List Char → List (List Char)
  | [] => [[]]
  | [c] => [[c]]
  | c :: d :: rest =>
      if c = first && d = second then [] :: piecesAt first second rest
      else
        match piecesAt first second (d :: rest) with
        | [] => [[c]]
        | piece :: others => (c :: piece) :: others

/-- A text without the ends of field lists at its end; the text and the result are reversed. -/
def dropListEnds : List Char → List Char
  | [] => []
  | [c] => [c]
  | c :: d :: rest => if c = ']' && d = closeBrace then dropListEnds rest else c :: d :: rest

/-- The target in front of `=`, and whether a list of fields that is not empty follows it. -/
def readTarget (cs : List Char) : Except Fault (List Char × Bool) :=
  match piecesAt '[' openBrace cs with
  | [] => .ok ([], false)
  | [target] => .ok (target, false)
  | [target, fields] =>
      if [closeBrace, ']'].isSuffixOf fields then
        .ok (target, !(dropListEnds fields.reverse).isEmpty)
      else .error .openFieldList
  | _ => .error .tooManyFieldLists

def Directive.ofChars (cs : List Char) : Except Fault Directive :=
  match pieces (· == '=') cs with
  | [_] | [] =>
      match Level.ofWord? cs with
      | some level => .ok { target := none, level }
      | none => .ok { target := some cs, level := .trace }
  | [front, word] => do
      let (target, hasFields) ← readTarget front
      match Level.ofWord? word with
      | some level => .ok { target := some target, hasFields, level }
      | none => .error .unknownLevel
  | _ => .error .tooManyEquals

/-! ## Filters -/

/-- A list of directives, in the order in which they were given. -/
abbrev Filter := List Directive

namespace Filter

/-- The directives between commas. -/
def ofText (text : String) : Except Fault Filter :=
  (pieces (· == ',') text.toList).mapM Directive.ofChars

/-- Without directives all warnings are logged, and where debugging is asked for, all but traces of
the program itself. -/
def standard (debug : Bool) : Filter :=
  { target := none, level := .warn }
    :: if debug then [{ target := some "genix".toList, level := .debug }] else []

/-- The filter for a directive text; a blank one counts as none. -/
def choose (text : Option String) (debug : Bool) : Except Fault Filter :=
  let given := String.ofList (trim (text.getD "").toList)
  if given = "" then .ok (standard debug) else ofText given

/-- How specific a directive is on a target: the number of bytes of its own target and one more,
none at all where it is for all targets. There is no answer where it does not apply. -/
def specificity? (target : String) (d : Directive) : Option Nat :=
  if d.hasFields then none
  else
    match d.target with
    | none => some 0
    | some start =>
        if start.isPrefixOf target.toList then some (byteCount start + 1) else none

/-- The level for a target: that of the most specific directive that applies; of two on the same
target the later one counts. -/
def level? (f : Filter) (target : String) : Option Level :=
  (f.foldl (fun best d =>
    match specificity? target d, best with
    | none, _ => best
    | some n, some (m, level) => if m ≤ n then some (n, d.level) else some (m, level)
    | some n, none => some (n, d.level)) none).map (·.2)

def enables (f : Filter) (target : String) (level : Level) : Bool :=
  (f.level? target).any fun most => level.rank ≤ most.rank

end Filter

end DeskShell.Logging
