import DeskShell.Packages.Registry
import DeskShell.Terminal.Dialogue

/-!
# The package installer at the prompt

The installer runs one command given with its call, or a dialogue of commands that `exit` ends. A
single command writes the registry at once; a dialogue writes it at its end, if it has changed.
-/

set_option autoImplicit false

namespace DeskShell.Packages

open Text Terminal Files

def help : String := "Commands: install <name>, remove <name>, list, help, exit"

/-! ## Commands -/

/-- The answer to a command that names no package, where one has to be named. -/
def usage (command : String) : Transcript := .sayLine s!"Usage: {command} <library>"

/-- Install a package: the registry after it, if there is a change, and what is written. -/
def install (r : Registry) (name : String) : Option Registry × Transcript :=
  if name = "" then (none, usage "install")
  else
    match r.install? name with
    | some r' => (some r', .sayLine s!"Installing library: {name}\nDone.")
    | none => (none, .sayLine s!"Library '{name}' is already installed.")

def remove (r : Registry) (name : String) : Option Registry × Transcript :=
  if name = "" then (none, usage "remove")
  else
    match r.remove? name with
    | some r' => (some r', .sayLine s!"Removed library: {name}")
    | none => (none, .sayLine s!"Library '{name}' is not installed.")

def listing (r : Registry) : Transcript :=
  if r.names.isEmpty then .sayLine "No libraries installed."
  else .say ("Installed libraries:\n" ++ String.join (r.names.map fun n => s!"  - {n}\n"))

/-- The effect of a command line: the registry after it, if there is a change, and what is
written. -/
def execute (r : Registry) (line : String) : Option Registry × Transcript :=
  let (word, rest) := firstWord (trim line.toList)
  let command := String.ofList word
  let argument := String.ofList (trim rest)
  if command = "" then (none, .nothing)
  else
    match lower command with
    | "install" => install r argument
    | "remove" => remove r argument
    | "list" => (none, listing r)
    | "help" => (none, .sayLine help)
    | _ => (none, .sayLine s!"Unknown command: {command}")

def commit (r : Registry) : Access (Registry × Transcript) := do
  match ← r.save with
  | (r, .ok ()) => pure (r, .nothing)
  | (r, .error refusal) =>
      pure (r, .sayLine s!"Failed to update registry at {Registry.path}: {refusal.message}")

/-! ## One command -/

/-- Run one command and write the registry if it has changed. -/
def executeOnce (r : Registry) (line : String) : Access (Turn Registry) := do
  match execute r line with
  | (none, written) => pure { written, state := r, last := true }
  | (some r', written) =>
      let (r', trouble) ← commit r'
      pure { written := written ++ trouble, state := r', last := true }

/-! ## The dialogue -/

/-- Write the registry if it has changed since it was read. -/
def close (r : Registry) : Access (Registry × Transcript) :=
  if r.dirty then commit r else pure (r, .nothing)

def hear (r : Registry) (line : String) : Access (Turn Registry) := do
  let command := String.ofList (trim line.toList)
  if command = "" then pure { written := .nothing, state := r }
  else if sameLetters command "exit" then
    let (r, trouble) ← close r
    pure
      { written := .sayLine "Package installer session ended." ++ trouble
        state := r
        last := true }
  else
    let (changed, written) := execute r command
    pure { written, state := changed.getD r }

def dialogue : Dialogue Registry where
  prompt _ := "pkg> "
  hear := hear
  atEnd r := do
    let (_, trouble) ← close r
    pure (.sayLine "\nInput error. Exiting package installer." ++ trouble)

/-- The opening of a session: the registry is loaded. A call with a command runs it and is over;
without one the dialogue begins. -/
def opening (call : String) : Access (Turn Registry) := do
  let r ← Registry.load
  let command := String.ofList (trim call.toList)
  if command = "" then
    pure
      { written := .sayLine <| "Package Installer (commands: install <name>, "
          ++ "remove <name>, list, help, exit)"
        state := r }
  else executeOnce r command

end DeskShell.Packages
