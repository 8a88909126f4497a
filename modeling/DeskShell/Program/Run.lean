import DeskShell.Program.Start

/-!
# A run of the program

A run is a function of the command line, the environment, the platform, the date, the tree of files
and the bytes that are typed. It ends with what has been written, an exit code and the tree as it
has become.
-/

set_option autoImplicit false

namespace DeskShell.Program

open Terminal Files

/-- What a run starts from. -/
structure Situation where
  /-- The words of the command line. -/
  arguments : List String
  environment : Environment
  platform : Platform
  today : Calendar.Date
  files : FileTree
  /-- The bytes that are typed. -/
  typed : List UInt8

/-- What a run leaves behind. -/
structure Report where
  written : Transcript
  exitCode : Nat
  files : FileTree

def misuse (fault : CommandLine.Fault) : Transcript :=
  announce fault.message ++ { err := CommandLine.usage ++ "\n" }

def conclude : Ending → Transcript × Nat
  | .finished | .inputEnded => (.nothing, 0)
  | .inputNotText => (announce Fault.notText.message, 1)

def run (s : Situation) : Report :=
  match CommandLine.ofWords s.arguments with
  | .error fault => ⟨misuse fault, 1, s.files⟩
  | .ok a =>
      let ((warnings, plan), t) :=
        (start treeHost s.environment s.platform s.today a).run s.files
      match plan with
      | .error refusal => ⟨warnings ++ announce refusal.message, 1, t⟩
      | .ok plan =>
          let o := plan.session.run plan.root t (rawLines s.typed)
          let (lastWords, code) := conclude o.ending
          ⟨warnings ++ o.written ++ lastWords, code, o.tree⟩

end DeskShell.Program
