import DeskShell.Files.Sandbox

/-!
# Access to files

Everything that an application does with files is a sequence of requests: read a text, write a
text, list a directory, each by a path in the sandbox. `Access α` is such a sequence, with a result
of type `α`; which request comes next may depend on the answers so far. It can be run on a tree of
files, where `run_bind` takes it apart, or answered by a real file system.
-/

set_option autoImplicit false

namespace DeskShell.Files

/-- A sequence of requests to the sandbox that ends in a result. -/
inductive Access (α : Type) : Type
  | done (result : α)
  | read (path : String) (next : Except Sandbox.Refusal String → Access α)
  | write (path text : String) (next : Except Sandbox.Refusal Unit → Access α)
  | list (path : String) (next : Except Sandbox.Refusal (List (String × Bool)) → Access α)

namespace Access

variable {α β : Type}

def bind : Access α → (α → Access β) → Access β
  | done a, f => f a
  | read path next, f => read path fun answer => (next answer).bind f
  | write path text next, f => write path text fun answer => (next answer).bind f
  | list path next, f => list path fun answer => (next answer).bind f

instance : Monad Access where
  pure := done
  bind := bind

def run (root : String) : Access α → FileTree → α × FileTree
  | done a, t => (a, t)
  | read path next, t => (next (Sandbox.read root t path)).run root t
  | write path text next, t =>
      let (t', answer) := Sandbox.write root t path text
      (next answer).run root t'
  | list path next, t => (next (Sandbox.list root t path)).run root t

def readText (path : String) : Access (Except Sandbox.Refusal String) := read path done

def writeText (path text : String) : Access (Except Sandbox.Refusal Unit) := write path text done

def listDirectory (path : String) : Access (Except Sandbox.Refusal (List (String × Bool))) :=
  list path done

/-! ## Running -/

@[simp] theorem run_pure (root : String) (a : α) (t : FileTree) :
    (pure a : Access α).run root t = (a, t) := rfl

/-- A sequence is run by running its first part and then the rest on the tree that is left. -/
@[simp] theorem run_bind (root : String) (x : Access α) (f : α → Access β) (t : FileTree) :
    (x >>= f).run root t = (f (x.run root t).1).run root (x.run root t).2 := by
  show (x.bind f).run root t = _
  induction x generalizing t with
  | done a => rfl
  | read path next ih => simp only [bind, run, ih]
  | write path text next ih => simp only [bind, run, ih]
  | list path next ih => simp only [bind, run, ih]

@[simp] theorem run_readText (root path : String) (t : FileTree) :
    (readText path).run root t = (Sandbox.read root t path, t) := rfl

@[simp] theorem run_writeText (root path text : String) (t : FileTree) :
    (writeText path text).run root t
      = ((Sandbox.write root t path text).2, (Sandbox.write root t path text).1) := rfl

@[simp] theorem run_listDirectory (root path : String) (t : FileTree) :
    (listDirectory path).run root t = (Sandbox.list root t path, t) := rfl

end Access

end DeskShell.Files
