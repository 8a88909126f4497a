import DeskShell.Files.Access
import DeskShell.Text.Blank
import DeskShell.Text.Letter
import DeskShell.Text.Line

/-!
# The registry of packages

The names of the installed packages in the order in which they were installed. Two names that
differ only in the case of ASCII letters are the same package; the spelling of the first
installation is kept. In its file each name stands on a line of its own.
-/

set_option autoImplicit false

namespace DeskShell.Packages

open Text

structure Registry where
  names : List String := []
  /-- Whether there are changes that have not been written to the file. -/
  dirty : Bool := false
  deriving Repr, DecidableEq

namespace Registry

def contains (r : Registry) (name : String) : Bool := r.names.any fun n => sameLetters n name

/-- The registry with one more package at its end; nothing if it is installed already. -/
def install? (r : Registry) (name : String) : Option Registry :=
  if r.contains name then none else some { names := r.names ++ [name], dirty := true }

/-- The registry without a package; nothing if it is not installed. -/
def remove? (r : Registry) (name : String) : Option Registry :=
  if r.contains name then
    some { names := r.names.eraseP fun n => sameLetters n name, dirty := true }
  else none

/-- The registry with a name from its file, unless it is there already or is blank. -/
def enter (r : Registry) (line : List Char) : Registry :=
  let name := trim line
  if name.isEmpty then r
  else
    match r.install? (String.ofList name) with
    | some r' => { r' with dirty := false }
    | none => r

def ofText (text : String) : Registry := (lines text.toList).foldl enter {}

/-- The registry as a text, one line a name. -/
def toText (r : Registry) : String := String.join (r.names.map (· ++ "\n"))

def path : String := "system/lib_registry.txt"

/-- The registry in the file; a file that cannot be read holds no names. -/
def load : Files.Access Registry := do
  match ← Files.Access.readText path with
  | .ok text => pure (ofText text)
  | .error _ => pure {}

/-- Write the registry to its file. After that it is clean, unless the file could not be
written. -/
def save (r : Registry) : Files.Access (Registry × Except Files.Sandbox.Refusal Unit) := do
  match ← Files.Access.writeText path r.toText with
  | .ok () => pure ({ r with dirty := false }, .ok ())
  | .error refusal => pure (r, .error refusal)

end Registry

end DeskShell.Packages
