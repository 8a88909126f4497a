import DeskShell.Terminal.Style

/-!
# The environment and the platform

The variables that the program looks at, what it takes from the platform it runs on, and what
follows from them: where settings are searched for, and which directory is the project root when
nobody names one.
-/

set_option autoImplicit false

namespace DeskShell.Program

/-- The environment, as far as it matters. A variable that is not set is absent. -/
structure Environment where
  /-- The directory of the user. -/
  home : Option String := none
  /-- The project root. -/
  root : Option String := none
  /-- The directive that says what is logged. -/
  log : Option String := none
  deriving Repr, DecidableEq

/-- What the platform and its libraries decide. Each of them has rules of its own, which the
program does not know. -/
structure Platform where
  /-- The directory for the data of the program, if the platform has one. -/
  dataDirectory : Option String
  /-- How fragments of the output are marked. -/
  palette : Terminal.Palette
  /-- Whether the output is a terminal. -/
  onTerminal : Bool := false

namespace Environment

/-- Look the variables up by their names. -/
def read {m : Type → Type} [Monad m] (get : String → m (Option String)) : m Environment := do
  let home ← get "HOME"
  let root ← get "GENIX_ROOT"
  let log ← get "GENIX_LOG"
  return { home, root, log }

/-- A variable that counts only if it is not empty. -/
def nonEmpty? (value : Option String) : Option String := value.filter (· != "")

/-- The usual places of the settings file, the first one first. -/
def settingsFiles (env : Environment) : List String :=
  let home := env.home.getD ""
  [home ++ "/.genixrc", home ++ "/genixrc", "./.genixrc", "./genixrc"]

/-- The project root: the first that is given by the command line, by the environment, by the
settings, or by the platform. -/
def projectRoot (env : Environment) (given setting dataDirectory : Option String) : String :=
  (given <|> nonEmpty? env.root <|> setting <|> dataDirectory).getD "./GenixFiles"

end Environment

end DeskShell.Program
