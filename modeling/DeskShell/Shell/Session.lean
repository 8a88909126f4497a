import DeskShell.Calculator.Session
import DeskShell.Calendar.Session
import DeskShell.Packages.Session
import DeskShell.Shell.Command

/-!
# The shell

The shell runs one command after another. Three commands start an application, which then hears
all lines until it ends; the lines behind that are commands again. The shell is one dialogue, whose
state is the running application, if there is one.

A single command is the same dialogue, over as soon as no application runs.
-/

set_option autoImplicit false

namespace DeskShell.Shell

open Terminal Files

/-! ## Applications -/

/-- A running application. -/
inductive Activity
  | calculator
  | calendar (state : Calendar.State)
  | packages (registry : Packages.Registry)
  deriving DecidableEq

namespace Activity

/-- The line that follows the last words of an application. -/
def farewell : Activity → Transcript
  | calculator => .sayLine "Calculator closed."
  | calendar _ => .sayLine "Calendar closed."
  | packages _ => .sayLine "Package installer finished."

/-- The turn of an application, as part of the shell: when it is over, no application runs. -/
def turn {σ : Type} (running : σ → Activity) (t : Turn σ) : Turn (Option Activity) :=
  if t.last then
    { written := t.written ++ (running t.state).farewell, state := none }
  else { written := t.written, state := some (running t.state) }

def prompt (look : Calendar.Look) : Activity → String
  | calculator => (Calculator.dialogue look.style).prompt ()
  | calendar state => (Calendar.dialogue look).prompt state
  | packages registry => Packages.dialogue.prompt registry

def hear (look : Calendar.Look) (activity : Activity) (line : String) :
    Access (Turn (Option Activity)) :=
  match activity with
  | calculator => turn (fun _ => calculator) <$> (Calculator.dialogue look.style).hear () line
  | calendar state => turn calendar <$> (Calendar.dialogue look).hear state line
  | packages registry => turn packages <$> Packages.dialogue.hear registry line

def atEnd (look : Calendar.Look) (activity : Activity) : Access Transcript := do
  let closing ←
    match activity with
    | calculator => (Calculator.dialogue look.style).atEnd ()
    | calendar state => (Calendar.dialogue look).atEnd state
    | packages registry => Packages.dialogue.atEnd registry
  pure (closing ++ activity.farewell)

end Activity

/-! ## Commands -/

def help : String :=
  "Commands:
  calc              scientific calculator
  calendar          month calendar with events
  pkg [args]        package installer
  ls [path]         list a directory under the project root
  cat <path>        print a file under the project root
  help              this list
  exit, quit        leave the shell"

/-- The names in a directory, one a line; a directory has a slash behind its name. -/
def listing (names : List (String × Bool)) : Transcript :=
  .say (String.join (names.map fun (name, isDirectory) =>
    name ++ (if isDirectory then "/" else "") ++ "\n"))

/-- A text brought to the end of a line. -/
def closeLine (text : String) : String :=
  if text = "" || text.toList.getLast? == some '\n' then text else text ++ "\n"

def listDirectory (path : String) : Access Transcript := do
  match ← Access.listDirectory path with
  | .ok names => pure (listing names)
  | .error refusal => pure (.sayLine s!"ls: {refusal.message}")

def printFile (path : String) : Access Transcript := do
  if path = "" then pure (.sayLine "cat: missing file operand")
  else
    match ← Access.readText path with
    | .ok text => pure (.say (closeLine text))
    | .error refusal => pure (.sayLine s!"cat: {refusal.message}")

/-- Write something and wait for the next command. -/
def reply (written : Transcript) : Turn (Option Activity) := { written, state := none }

/-- The effect of a command: it is answered at once or starts an application. -/
def perform (look : Calendar.Look) : Command → Access (Turn (Option Activity))
  | .nothing => pure (reply .nothing)
  | .leave => pure { written := .nothing, state := none, last := true }
  | .help => pure (reply (.sayLine help))
  | .calculator => Activity.turn (fun _ => .calculator) <$> Calculator.opening
  | .calendar => Activity.turn .calendar <$> Calendar.opening look
  | .packages call => Activity.turn .packages <$> Packages.opening call
  | .list path => reply <$> listDirectory path
  | .print path => reply <$> printFile path
  | .unknown word => pure (reply (.sayLine s!"{word}: command not found"))

/-! ## The shell as a dialogue -/

def commandPrompt : String := "genix> "

/-- The prompt of the running application, or the one for a command. -/
def prompt (look : Calendar.Look) : Option Activity → String
  | some activity => activity.prompt look
  | none => commandPrompt

/-- A line goes to the running application, or is a command. -/
def hear (look : Calendar.Look) (running : Option Activity) (line : String) :
    Access (Turn (Option Activity)) :=
  match running with
  | some activity => activity.hear look line
  | none => perform look (.ofLine line)

/-- The shell as a dialogue. The end of the input ends the running application and then the
shell. -/
def dialogue (look : Calendar.Look) : Dialogue (Option Activity) where
  prompt := prompt look
  hear := hear look
  atEnd
    | some activity => do
        let closing ← activity.atEnd look
        pure (closing ++ .say commandPrompt ++ .sayLine "")
    | none => pure (.sayLine "")

/-- A turn that is over when no application runs after it. -/
def once (turn : Turn (Option Activity)) : Turn (Option Activity) :=
  { turn with last := turn.last || turn.state.isNone }

/-- The rest of a single command as a dialogue: it is over when no application runs. -/
def commandDialogue (look : Calendar.Look) : Dialogue (Option Activity) where
  prompt := prompt look
  hear running line := once <$> hear look running line
  atEnd
    | some activity => activity.atEnd look
    | none => pure .nothing

/-! ## Sessions -/

structure Session where
  dialogue : Dialogue (Option Activity)
  opening : Access (Turn (Option Activity))

namespace Session

/-- The shell itself, after a greeting. -/
def interactive (look : Calendar.Look) (greeting : Transcript) : Session where
  dialogue := Shell.dialogue look
  opening := pure (reply greeting)

def single (look : Calendar.Look) (line : String) : Session where
  dialogue := commandDialogue look
  opening := once <$> perform look (.ofLine line)

def run (s : Session) (root : String) (t : FileTree) (lines : List RawLine) :
    Outcome (Option Activity) :=
  s.dialogue.converse root s.opening t lines

end Session

end DeskShell.Shell
