import DeskShell.Terminal.Style

/-!
# What is written

An application writes to two streams, the output and the error stream. A `Transcript` is what has
been written to each; transcripts are put together with `++`, earlier text first.
-/

set_option autoImplicit false

namespace DeskShell.Terminal

/-- The text written to the output stream and to the error stream. -/
structure Transcript where
  out : String := ""
  err : String := ""
  deriving Repr, DecidableEq

namespace Transcript

def nothing : Transcript := {}

def say (text : String) : Transcript := { out := text }

def sayLine (text : String) : Transcript := say (text ++ "\n")

def complain (style : Style) (message : String) : Transcript :=
  { err := style.errorLabel ++ " " ++ message ++ "\n" }

instance : Append Transcript where
  append a b := ⟨a.out ++ b.out, a.err ++ b.err⟩

@[simp] theorem out_append (a b : Transcript) : (a ++ b).out = a.out ++ b.out := rfl

@[simp] theorem err_append (a b : Transcript) : (a ++ b).err = a.err ++ b.err := rfl

theorem append_assoc (a b c : Transcript) : a ++ b ++ c = a ++ (b ++ c) := by
  show Transcript.mk _ _ = Transcript.mk _ _
  simp [String.append_assoc]

@[simp] theorem nothing_append (a : Transcript) : nothing ++ a = a := by
  show Transcript.mk _ _ = a
  simp [nothing]

@[simp] theorem append_nothing (a : Transcript) : a ++ nothing = a := by
  show Transcript.mk _ _ = a
  simp [nothing]

end Transcript

end DeskShell.Terminal
