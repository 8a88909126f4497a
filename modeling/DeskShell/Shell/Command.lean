import DeskShell.Text.Blank

/-!
# Commands of the shell

A command line is a word and an argument. The word ends at the first ASCII blank; the argument is
what follows, without the blanks around it. Words are told apart by case.
-/

set_option autoImplicit false

namespace DeskShell.Shell

open Text

/-- What a command line asks for. -/
inductive Command
  /-- A blank line asks for nothing. -/
  | nothing
  | leave
  | help
  | calculator
  | calendar
  /-- The package installer; a call that is not empty is its only command. -/
  | packages (call : String)
  /-- The names in a directory. -/
  | list (path : String)
  /-- The text of a file. -/
  | print (path : String)
  /-- A word that is no command. -/
  | unknown (word : String)
  deriving Repr, DecidableEq

namespace Command

def ofWord (word argument : String) : Command :=
  match word with
  | "" => nothing
  | "exit" | "quit" => leave
  | "help" => help
  | "calc" => calculator
  | "calendar" => calendar
  | "pkg" => packages argument
  | "ls" => list argument
  | "cat" => print argument
  | _ => unknown word

def ofLine (line : String) : Command :=
  let (word, rest) := firstWord (trim line.toList)
  ofWord (String.ofList word) (String.ofList (trim rest))

end Command

/-- What a shell does after a command. -/
inductive Flow
  | goOn
  | leave
  deriving Repr, DecidableEq

/-- Only the command to leave ends the shell. -/
def Command.flow : Command → Flow
  | .leave => .leave
  | _ => .goOn

end DeskShell.Shell
