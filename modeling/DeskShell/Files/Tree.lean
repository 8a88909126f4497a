import DeskShell.Files.Fault
import DeskShell.Files.Path

/-!
# The tree of files

A file system as a value: which locations hold a file or a directory, and the directory in which
relative paths start. The operations are those of the operating system on a tree without links,
with the causes for which each of them fails.

Names and paths are texts. A real file system may also hold names that are not UTF-8; these have no
counterpart here, and neither has the replacement of their bytes when such a name is listed.

`get?_put_self` and `get?_put_of_ne` say all there is to know about a changed entry; everything
else is walking (`FileTree.walk`), which changes nothing.
-/

set_option autoImplicit false

namespace DeskShell.Files

/-- The names from the top of the file system down to an entry. -/
abbrev Location := List String

inductive Entry
  | file (bytes : ByteArray)
  | directory

def Entry.isDirectory : Entry → Bool
  | directory => true
  | file _ => false

/-- A file system. The top is a directory without an entry of its own. -/
structure FileTree where
  /-- Where relative paths start. -/
  workingDirectory : Location
  entries : List (Location × Entry)

def maxName : Nat := 255

def maxPath : Nat := 4095

namespace FileTree

/-! ## Entries -/

/-- What a location holds, if anything. -/
def get? (t : FileTree) (place : Location) : Option Entry :=
  if place = [] then some .directory else (t.entries.find? fun e => e.1 == place).map (·.2)

/-- The tree with one entry put in place of what its location held. -/
def put (t : FileTree) (place : Location) (entry : Entry) : FileTree :=
  { t with entries := (t.entries.filter fun e => e.1 != place) ++ [(place, entry)] }

@[simp] theorem get?_top (t : FileTree) : t.get? [] = some .directory := rfl

@[simp] theorem workingDirectory_put (t : FileTree) (place : Location) (entry : Entry) :
    (t.put place entry).workingDirectory = t.workingDirectory := rfl

theorem get?_put_self (t : FileTree) {place : Location} (entry : Entry) (h : place ≠ []) :
    (t.put place entry).get? place = some entry := by
  have hold : (t.entries.filter fun e => e.1 != place).find? (fun e => e.1 == place) = none := by
    simp
  simp [get?, put, h, List.find?_append, hold]

theorem get?_put_of_ne (t : FileTree) {place other : Location} (entry : Entry) (h : other ≠ place) :
    (t.put place entry).get? other = t.get? other := by
  have hne : (place == other) = false := by simpa using h.symm
  by_cases ho : other = []
  · simp [get?, ho]
  · have hfind : (t.entries.filter fun e => e.1 != place).find? (fun e => e.1 == other)
        = t.entries.find? (fun e => e.1 == other) := by
      rw [List.find?_filter]
      congr 1
      funext e
      by_cases he : e.1 = other
      · simp [he, h]
      · simp [he]
    simp [get?, put, ho, List.find?_append, hfind, hne]

/-! ## Walking -/

/-- Why a path is refused before it is walked. -/
def pathFault? (path : String) : Option Fault :=
  if path.toList.contains '\x00' then some .nulInPath
  else if path = "" then some .notFound
  else if maxPath < path.utf8ByteSize then some .nameTooLong
  else none

def start (t : FileTree) (path : String) : Location :=
  if Path.isAbsolute path then [] else t.workingDirectory

/-- Where pieces lead from a location. Each piece needs a directory to start from; what the last
one leads to need not exist. -/
def walk (t : FileTree) (base : Location) : List String → Except Fault Location
  | [] => .ok base
  | piece :: rest =>
      match t.get? base with
      | none => .error .notFound
      | some (.file _) => .error .notDirectory
      | some .directory =>
          if piece = Path.here then t.walk base rest
          else if piece = Path.up then t.walk base.dropLast rest
          else if maxName < piece.utf8ByteSize then .error .nameTooLong
          else t.walk (base ++ [piece]) rest

/-- The steps of the walk to a path that has to exist: a slash at its end asks for a directory, as
`.` does. -/
def steps (path : String) : List String :=
  if Path.endsInSlash path then Path.pieces path ++ [Path.here] else Path.pieces path

def find (t : FileTree) (path : String) : Except Fault (Location × Entry) := do
  if let some fault := pathFault? path then throw fault
  let place ← t.walk (t.start path) (steps path)
  match t.get? place with
  | some entry => .ok (place, entry)
  | none => .error .notFound

def pathExists (t : FileTree) (path : String) : Bool := (t.find path).toBool

/-! ## Reading -/

def readBytes (t : FileTree) (path : String) : Except Fault ByteArray := do
  match ← t.find path with
  | (_, .file bytes) => .ok bytes
  | (_, .directory) => .error .isDirectory

def readText (t : FileTree) (path : String) : Except Fault String := do
  match String.fromUTF8? (← t.readBytes path) with
  | some text => .ok text
  | none => .error .notText

/-- The name of a location in a directory, if it is in it. -/
def nameIn? (directory place : Location) : Option String :=
  if place.dropLast = directory then place.getLast? else none

/-- The names in a directory with what they stand for, in the order of their bytes. -/
def children (t : FileTree) (directory : Location) : List (String × Entry) :=
  (t.entries.filterMap fun e => (nameIn? directory e.1).map (·, e.2)).mergeSort
    fun a b => a.1 ≤ b.1

/-- The names in the directory that a path leads to; each with whether it is a directory. -/
def list (t : FileTree) (path : String) : Except Fault (List (String × Bool)) := do
  match ← t.find path with
  | (place, .directory) =>
      .ok ((t.children place).map fun (name, entry) => (name, entry.isDirectory))
  | (_, .file _) => .error .notDirectory

/-! ## Writing -/

/-- Replace the bytes of a file, or make the file. Its directory has to exist. -/
def writeBytes (t : FileTree) (path : String) (bytes : ByteArray) :
    FileTree × Except Fault Unit :=
  match pathFault? path with
  | some fault => (t, .error fault)
  | none =>
      match t.walk (t.start path) (Path.pieces path) with
      | .error fault => (t, .error fault)
      | .ok place =>
          if Path.endsInSlash path then (t, .error .isDirectory)
          else
            match t.get? place with
            | some .directory => (t, .error .isDirectory)
            | _ => (t.put place (.file bytes), .ok ())

/-- Make the directories that pieces lead through, as far as they are missing. A file in the way is
a fault of its own kind where it is the last piece; a missing directory is not made for the sake of
a final `.` alone. -/
def makeSteps (t : FileTree) (base : Location) : List String → FileTree × Except Fault Unit
  | [] => (t, .ok ())
  | piece :: rest =>
      if piece = Path.here then t.makeSteps base rest
      else if piece = Path.up then t.makeSteps base.dropLast rest
      else if maxName < piece.utf8ByteSize then (t, .error .nameTooLong)
      else
        let next := base ++ [piece]
        match t.get? next with
        | some .directory => t.makeSteps next rest
        | some (.file _) => (t, .error (if rest.isEmpty then .alreadyExists else .notDirectory))
        | none =>
            if !rest.isEmpty && rest.all (· == Path.here) then (t, .error .notFound)
            else (t.put next .directory).makeSteps next rest

/-- Make the directory that a path names and all directories above it, as far as they are missing.
The empty path asks for nothing. -/
def makeDirectories (t : FileTree) (path : String) : FileTree × Except Fault Unit :=
  if path = "" then (t, .ok ())
  else
    match pathFault? path with
    | some fault => (t, .error fault)
    | none => t.makeSteps (t.start path) (Path.pieces path)

def writeText (t : FileTree) (path text : String) : FileTree × Except Fault Unit :=
  match t.makeDirectories ((Path.parent? path).getD "") with
  | (t, .error fault) => (t, .error fault)
  | (t, .ok ()) => t.writeBytes path text.toUTF8

/-! ## The whole tree -/

/-- A tree that holds one empty directory, the working directory. -/
def empty (workingDirectory : Location) : FileTree :=
  (({ workingDirectory, entries := [] } : FileTree).makeSteps [] workingDirectory).1

/-- The files and the empty directories below the working directory, by their relative paths; a
directory has a slash at its end and no content. -/
def leaves (t : FileTree) : List (String × Option ByteArray) :=
  t.entries.filterMap fun (place, entry) =>
    if t.workingDirectory.isPrefixOf place && place != t.workingDirectory then
      let path := "/".intercalate (place.drop t.workingDirectory.length)
      match entry with
      | .file bytes => some (path, some bytes)
      | .directory => if (t.children place).isEmpty then some (path ++ "/", none) else none
    else none

end FileTree

end DeskShell.Files
