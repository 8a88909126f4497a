import DeskShell.Terminal.Style
import DeskShell.Text.Letter

/-!
# Settings

What a user can set: the project root, when output is styled, and what is logged. A setting is
changed by its name and the text of its value; what cannot be set is refused. The settings are given
back in either case.
-/

set_option autoImplicit false

namespace DeskShell

open Terminal

/-- The settings of a user; what is not set is left to the program. -/
structure Settings where
  /-- The project root. -/
  root : Option String := none
  color : Coloring := .auto
  /-- The directive that says what is logged. -/
  log : Option String := none
  deriving Repr, DecidableEq

namespace Settings

inductive Fault
  | missingName
  | unknownName (name : String)
  | invalidColor (value : String)
  deriving Repr, DecidableEq

def Fault.message : Fault → String
  | missingName => "set: missing setting name"
  | unknownName name => s!"unknown setting '{name}'"
  | invalidColor value => s!"invalid color '{value}' (expected on, off or auto)"

/-- A value that counts only if it is not empty. -/
def nonEmpty? (value : String) : Option String := if value = "" then none else some value

/-- Change a setting by its name, in any case. An empty root or log directive is none at all. -/
def set (s : Settings) (name value : String) : Settings × Except Fault Unit :=
  match Text.lower name with
  | "root" => ({ s with root := nonEmpty? value }, .ok ())
  | "color" | "colour" =>
      match Coloring.ofWord? value with
      | some color => ({ s with color }, .ok ())
      | none => (s, .error (.invalidColor value))
  | "log" => ({ s with log := nonEmpty? value }, .ok ())
  | _ => (s, .error (.unknownName name))

end Settings

end DeskShell
