import DeskShell.Logging.Filter
import DeskShell.Program.Run
import DeskShell.Terminal.Ansi
import Std.Time

/-!
# The program

The outer layer: it answers the requests of the library by the real system, types out what is
written, reads what is typed, and finds out what the platform has decided. What is asked, written
and done is decided by `DeskShell.Program`, `DeskShell.Terminal` and `DeskShell.Files`.
-/

set_option autoImplicit false

namespace DeskShell.Main

open Terminal Files

/-! ## Files -/

/-- The fault that an error of the operating system stands for. -/
def faultOf : IO.Error → Fault
  | .noFileOrDirectory .. => .notFound
  | .alreadyExists .. => .alreadyExists
  | .inappropriateType _ code details =>
      if code = 20 then .notDirectory
      else if code = 21 then .isDirectory
      else .other s!"{details} (os error {code})"
  | error => .other (toString error)

/-- Do something with a path that can be used at all. -/
def attempt {α : Type} (path : String) (action : IO α) : IO (Except Fault α) := do
  match FileTree.pathFault? path with
  | some fault => return .error fault
  | none =>
      try return .ok (← action)
      catch error => return .error (faultOf error)

def readText (path : String) : IO (Except Fault String) := do
  match ← attempt path (IO.FS.readBinFile path) with
  | .error fault => return .error fault
  | .ok bytes => return (String.fromUTF8? bytes).elim (.error .notText) .ok

def makeDirectories (path : String) : IO (Except Fault Unit) :=
  if path = "" then return .ok () else attempt path (IO.FS.createDirAll path)

def writeText (path text : String) : IO (Except Fault Unit) := do
  match ← makeDirectories ((Path.parent? path).getD "") with
  | .error fault => return .error fault
  | .ok () => attempt path (IO.FS.writeBinFile path text.toUTF8)

def pathExists (path : String) : IO Bool := do
  return (← attempt path (IO.FS.withFile path .read fun _ => return ())).toBool

/-- The fault of a listing: there is no portable way to read a directory. -/
def noListing : Fault := .other "Function not implemented (os error 38)"

/-- Start the log. The program logs one message of its own: that a directive cannot be read, and
that the log goes on without it. -/
def startLog (directive : Option String) (debug : Bool) : IO Unit := do
  match Logging.Filter.choose directive debug with
  | .ok _ => return ()
  | .error fault =>
      if (Logging.Filter.standard debug).enables "genix::logging" .warn then
        IO.eprintln s!"WARN genix::logging: ignoring invalid log directive: {fault.message}"

def host : Program.Host IO := { pathExists, readText, startLog, makeDirectories }

def serve (root : String) {α : Type} : Access α → IO α
  | .done result => return result
  | .read path next => do
      match Sandbox.resolve root path with
      | .error refusal => serve root (next (.error refusal))
      | .ok target => serve root (next (Sandbox.blame path (← readText target)))
  | .write path text next => do
      match Sandbox.resolve root path with
      | .error refusal => serve root (next (.error refusal))
      | .ok target => serve root (next (Sandbox.blame path (← writeText target text)))
  | .list path next => do
      match Sandbox.resolve root path with
      | .error refusal => serve root (next (.error refusal))
      | .ok _ => serve root (next (Sandbox.blame path (.error noListing)))

/-! ## The terminal -/

def display (written : Transcript) : IO Unit := do
  let out ← IO.getStdout
  out.putStr written.out
  out.flush
  (← IO.getStderr).putStr written.err

/-- Read bytes up to the end of a line; `reversed` are those that have been read. -/
partial def readRawLine (input : IO.FS.Stream) (reversed : List UInt8) : IO RawLine := do
  match (← input.read 1).toList with
  | [] => return reversed.reverse
  | byte :: _ =>
      if byte = lineFeed then return (byte :: reversed).reverse
      else readRawLine input (byte :: reversed)

/-- Let a dialogue talk from a state on. -/
partial def talk {σ : Type} (dialogue : Dialogue σ) (root : String) (state : σ) : IO Ending := do
  display (.say (dialogue.prompt state))
  let raw ← readRawLine (← IO.getStdin) []
  if raw.isEmpty then
    display (← serve root (dialogue.atEnd state))
    return .inputEnded
  match raw.text? with
  | none => return .inputNotText
  | some line =>
      let turn ← serve root (dialogue.hear state line)
      display turn.written
      if turn.last then return .finished else talk dialogue root turn.state

/-- Let a session talk from its opening on. -/
def converse (root : String) (session : Shell.Session) : IO Ending := do
  let turn ← serve root session.opening
  display turn.written
  if turn.last then return .finished else talk session.dialogue root turn.state

/-! ## The platform -/

/-- The fields of the lines of a text file; none if it cannot be read. -/
def readFields (path separator : String) : IO (List (List String)) := do
  match ← readText path with
  | .ok text => return (text.splitOn "\n").map (·.splitOn separator)
  | .error _ => return []

/-- The directory of the user that the password file names. -/
def accountDirectory? : IO (Option String) := do
  let status ← readFields "/proc/self/status" "\t"
  let accounts ← readFields "/etc/passwd" ":"
  return do
    let user ← (← status.find? (·.head? = some "Uid:"))[1]?
    Program.Environment.nonEmpty? (← accounts.find? (·[2]? = some user))[5]?

/-- The directory for the data of the program, as desktops have it: below the one for the data of
all programs if that is absolute, else below the directory of the user. -/
def dataDirectory? : IO (Option String) := do
  let home ←
    match Program.Environment.nonEmpty? (← IO.getEnv "HOME") with
    | some home => pure (some home)
    | none => accountDirectory?
  match home with
  | none => return none
  | some home =>
      let data := (← IO.getEnv "XDG_DATA_HOME").filter Path.isAbsolute
      return some (Path.join (data.getD (Path.join home ".local/share")) "genix")

/-- The platform that the program runs on. Any text in `NO_COLOR` asks for output without
colours. -/
def platform : IO Program.Platform := do
  let noColor := Program.Environment.nonEmpty? (← IO.getEnv "NO_COLOR")
  return {
    dataDirectory := ← dataDirectory?
    palette := .ansi noColor.isNone
    onTerminal := ← (← IO.getStdout).isTty }

/-! ## The program -/

/-- The current date; the calendar has room for all dates that a clock can display. -/
def today : IO Calendar.Date := do
  let now ← Std.Time.PlainDate.now
  match Calendar.Date.ofParts? now.year.toInt now.month.toNat now.day.toNat with
  | some date => return date
  | none => throw (IO.userError "the clock shows no date")

def run (arguments : List String) : IO UInt32 := do
  match CommandLine.ofWords arguments with
  | .error fault =>
      display (Program.misuse fault)
      return 1
  | .ok commandLine =>
      let environment ← Program.Environment.read fun name => IO.getEnv name
      let (warnings, plan) ←
        Program.start host environment (← platform) (← today) commandLine
      display warnings
      match plan with
      | .error refusal =>
          display (Program.announce refusal.message)
          return 1
      | .ok plan =>
          let (lastWords, code) := Program.conclude (← converse plan.root plan.session)
          display lastWords
          return code.toUInt32

end DeskShell.Main

/-- Run the program with the words of the command line. -/
def main (arguments : List String) : IO UInt32 := DeskShell.Main.run arguments
