/-!
# Faults of file access

The causes for which a file or directory cannot be used, and the text with which the operating
system reports each.
-/

set_option autoImplicit false

namespace DeskShell.Files

inductive Fault
  | notFound
  | alreadyExists
  | notDirectory
  | isDirectory
  | nameTooLong
  /-- A path with a NUL character reaches no file system. -/
  | nulInPath
  /-- The bytes of a file are not UTF-8. -/
  | notText
  /-- Any cause that the tree of files does not know, as the system words it. -/
  | other (wording : String)
  deriving Repr, DecidableEq

/-- The wording of the operating system. -/
def Fault.message : Fault → String
  | notFound => "No such file or directory (os error 2)"
  | alreadyExists => "File exists (os error 17)"
  | notDirectory => "Not a directory (os error 20)"
  | isDirectory => "Is a directory (os error 21)"
  | nameTooLong => "File name too long (os error 36)"
  | nulInPath => "file name contained an unexpected NUL byte"
  | notText => "stream did not contain valid UTF-8"
  | other wording => wording

end DeskShell.Files
