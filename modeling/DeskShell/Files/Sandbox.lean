import DeskShell.Files.Tree

/-!
# The sandbox

Files are used by paths relative to one directory, the root. A path is resolved by its text alone:
`.` is dropped, `..` takes back the name before it, and a path that would leave the root is refused
before any file is touched. `resolve` gives the names below the root that a path stands for, so
that two paths with the same names are the same file.
-/

set_option autoImplicit false

namespace DeskShell.Files

namespace Sandbox

/-! ## Refusals -/

/-- Why an operation in the sandbox fails, with the path as it was given. -/
inductive Refusal
  /-- The path leads out of the root. -/
  | outside (path : String)
  /-- The file system refuses. -/
  | failed (path : String) (fault : Fault)
  deriving Repr, DecidableEq

def Refusal.message : Refusal → String
  | .outside path => s!"Permission denied: {path} is outside the project root"
  | .failed path fault => s!"{path}: {fault.message}"

def Refusal.isNotFound : Refusal → Bool
  | .failed _ .notFound => true
  | _ => false

/-! ## Resolution -/

/-- The names that remain of pieces when each `..` has taken back the name before it; `taken` holds
the names so far, the last one first. There is no answer where a `..` has nothing to take back. -/
def cancel (taken : List String) : List String → Option (List String)
  | [] => some taken.reverse
  | piece :: rest =>
      if piece = Path.here then cancel taken rest
      else if piece = Path.up then
        match taken with
        | [] => none
        | _ :: before => cancel before rest
      else cancel (piece :: taken) rest

/-- The names below the root that a path stands for. -/
def names? (path : String) : Option (List String) :=
  if Path.isAbsolute path then none else cancel [] (Path.pieces path)

/-- The path on the file system that a path in the sandbox stands for. -/
def resolve (root path : String) : Except Refusal String :=
  match names? path with
  | some names => .ok (Path.join root ("/".intercalate names))
  | none => .error (.outside path)

/-! ## Operations -/

def blame {α : Type} (path : String) : Except Fault α → Except Refusal α
  | .ok a => .ok a
  | .error fault => .error (.failed path fault)

def openRoot (root : String) (t : FileTree) : FileTree × Except Refusal Unit :=
  let (t, made) := t.makeDirectories root
  (t, blame root made)

def read (root : String) (t : FileTree) (path : String) : Except Refusal String := do
  blame path (t.readText (← resolve root path))

/-- The names in a directory, in order, each with whether it is a directory. -/
def list (root : String) (t : FileTree) (path : String) :
    Except Refusal (List (String × Bool)) := do
  blame path (t.list (← resolve root path))

/-- Replace the text of a file, or make the file and the directories above it. -/
def write (root : String) (t : FileTree) (path text : String) :
    FileTree × Except Refusal Unit :=
  match resolve root path with
  | .error refusal => (t, .error refusal)
  | .ok target =>
      let (t, written) := t.writeText target text
      (t, blame path written)

def pathExists (root : String) (t : FileTree) (path : String) : Bool :=
  match resolve root path with
  | .ok target => t.pathExists target
  | .error _ => false

end Sandbox

end DeskShell.Files
