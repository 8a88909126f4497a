/-!
# The command line

Words that start with a dash are options, up to the first word that does not, or up to `--`; the
words from there on are a command for the shell. Letters of options may share a word. A value
stands in the same word behind its letter, or is the next word; the name of a settings file has to
stand in the same word, and without a name no settings are read.

The words are read from left to right by `read`, which waits for the value of an option between two
words if it has to; `readLetters` reads the letters of one word.
-/

set_option autoImplicit false

namespace DeskShell

/-- Where settings are read from. -/
inductive SettingsSource
  /-- The first of the usual places that is there. -/
  | search
  | nowhere
  | file (path : String)
  deriving Repr, DecidableEq

/-- What the command line asks for. -/
structure CommandLine where
  root : Option String := none
  settings : SettingsSource := .search
  /-- The command to run in place of a session. -/
  command : Option String := none
  debug : Bool := false
  /-- Whether the greeting is left out. -/
  quiet : Bool := false
  deriving Repr, DecidableEq

namespace CommandLine

/-! ## Options -/

/-- The options that need a value. -/
inductive Valued
  | root
  | command
  deriving Repr, DecidableEq

def Valued.letter : Valued → Char
  | root => 'r'
  | command => 'c'

inductive Fault
  | unknownOption (letter : Char)
  | missingValue (letter : Char)
  deriving Repr, DecidableEq

def Fault.message : Fault → String
  | unknownOption letter => s!"unknown option: -{letter}"
  | missingValue letter => s!"-{letter} requires an argument"

/-- The form of a command line. -/
def usage : String :=
  "Usage: genix [-r<root>] [-f[<file>]] [-c<cmd>] [-dq] [<command> [args...]]"

def put (a : CommandLine) (option : Valued) (value : String) : CommandLine :=
  match option with
  | .root => { a with root := some value }
  | .command => { a with command := some value }

/-- An option with its value in the same word, or waiting for it if the word ends. -/
def attach (a : CommandLine) (option : Valued) (value : List Char) :
    CommandLine × Option Valued :=
  if value.isEmpty then (a, some option) else (a.put option (String.ofList value), none)

/-- The letters of a word of options; also the option that waits for its value, if one does. -/
def readLetters (a : CommandLine) : List Char → Except Fault (CommandLine × Option Valued)
  | [] => .ok (a, none)
  | 'd' :: rest => readLetters { a with debug := true } rest
  | 'q' :: rest => readLetters { a with quiet := true } rest
  | 'f' :: name =>
      let settings := if name.isEmpty then .nowhere else .file (String.ofList name)
      .ok ({ a with settings }, none)
  | 'c' :: value => .ok (a.attach .command value)
  | 'r' :: value => .ok (a.attach .root value)
  | letter :: _ => .error (.unknownOption letter)

/-! ## Words -/

/-- The letters of a word, if it is a word of options. -/
def letters? (word : String) : Option (List Char) :=
  match word.toList with
  | '-' :: c :: rest => some (c :: rest)
  | _ => none

/-- Take words as the command; no words leave it as it is. -/
def withCommand (a : CommandLine) (ws : List String) : CommandLine :=
  if ws.isEmpty then a else { a with command := some (" ".intercalate ws) }

/-- Read words, the first of which may be the value that an option waits for. -/
def read (a : CommandLine) : Option Valued → List String → Except Fault CommandLine
  | none, [] => .ok a
  | some option, [] => .error (.missingValue option.letter)
  | some option, value :: rest => (a.put option value).read none rest
  | none, word :: rest =>
      if word = "--" then .ok (a.withCommand rest)
      else
        match letters? word with
        | none => .ok (a.withCommand (word :: rest))
        | some letters =>
            match a.readLetters letters with
            | .error fault => .error fault
            | .ok (a, waiting) => a.read waiting rest

def ofWords (ws : List String) : Except Fault CommandLine := read {} none ws

end CommandLine

end DeskShell
