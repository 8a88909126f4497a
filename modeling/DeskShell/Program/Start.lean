import DeskShell.CommandLine
import DeskShell.Files.Sandbox
import DeskShell.Program.Environment
import DeskShell.Settings.File
import DeskShell.Shell.Session

/-!
# The start of the program

Before the first command the settings are read, the log is started and the project root is made.
This is all that the program does with files outside the root; `Host` names the requests that it
takes, so that a tree of files and a real system can answer them alike.
-/

set_option autoImplicit false

namespace DeskShell.Program

open Terminal Files

/-! ## Requests -/

/-- What the start of the program asks of the system. -/
structure Host (m : Type → Type) where
  pathExists : String → m Bool
  readText : String → m (Except Fault String)
  /-- Log by a directive, if there is one, and with more detail where debugging is asked for. What
  is logged is no part of what the program writes. -/
  startLog : Option String → Bool → m Unit
  makeDirectories : String → m (Except Fault Unit)

/-- A tree of files answers the requests; there is no log in it. -/
def treeHost : Host (StateM FileTree) where
  pathExists path := fun t => (t.pathExists path, t)
  readText path := fun t => (t.readText path, t)
  startLog _ _ := pure ()
  makeDirectories path := fun t => ((t.makeDirectories path).2, (t.makeDirectories path).1)

variable {m : Type → Type} [Monad m]

/-! ## Settings -/

def announce (message : String) : Transcript := { err := s!"genix: {message}\n" }

def warning (path message : String) : Transcript := announce s!"warning: {path}: {message}"

/-- The first of the usual settings files that is there. -/
def findSettings (host : Host m) (env : Environment) : m (Option String) :=
  env.settingsFiles.findM? host.pathExists

def settingsFile (host : Host m) (env : Environment) : SettingsSource → m (Option String)
  | .search => findSettings host env
  | .nowhere => pure none
  | .file path => pure (some path)

/-- The settings in a text that has been read from a file, with a warning for each line that cannot
be followed; no settings, with a warning, if the file could not be read. -/
def settingsOf (path : String) : Except Fault String → Settings × Transcript
  | .ok text =>
      let (settings, notices) := Settings.ofText text
      (settings, notices.foldl (fun w notice => w ++ warning path notice.text) .nothing)
  | .error fault => ({}, warning path fault.message)

def readSettings (host : Host m) (env : Environment) (source : SettingsSource) :
    m (Settings × Transcript) := do
  match ← settingsFile host env source with
  | none => return ({}, .nothing)
  | some path => return settingsOf path (← host.readText path)

/-! ## The plan -/

def version : String := "0.1.0"

/-- The first words of an interactive session. -/
def greeting : Transcript :=
  .say s!"Genix shell {version}\nType 'help' for commands, 'exit' to quit.\n"

/-- What the program is going to do. -/
structure Plan where
  /-- The project root. -/
  root : String
  session : Shell.Session

/-- The session that a command line asks for: one command, or the shell. -/
def sessionOf (look : Calendar.Look) (a : CommandLine) : Shell.Session :=
  match a.command with
  | some command => .single look command
  | none => .interactive look (if a.quiet then .nothing else greeting)

/-- Start: read the settings, start the log and make the project root. The warnings come first; the
root may be refused. -/
def start (host : Host m) (env : Environment) (platform : Platform) (today : Calendar.Date)
    (a : CommandLine) : m (Transcript × Except Sandbox.Refusal Plan) := do
  let (settings, warnings) ← readSettings host env a.settings
  -- the environment decides on the log before the settings do
  host.startLog (env.log <|> settings.log) a.debug
  let root := env.projectRoot a.root settings.root platform.dataDirectory
  let look : Calendar.Look :=
    { today, style := .ofColoring platform.palette settings.color platform.onTerminal }
  match Sandbox.blame root (← host.makeDirectories root) with
  | .ok () => return (warnings, .ok { root, session := sessionOf look a })
  | .error refusal => return (warnings, .error refusal)

end DeskShell.Program
