import DeskShell.Files.Access
import DeskShell.Terminal.Input
import DeskShell.Terminal.Transcript

/-!
# Dialogues

An application talks with its user by asking, reading one line, and answering. Between two lines
it is in a state; the state decides the prompt. A `Dialogue` says what is asked in a state, what a
line does, and what is left to do when the input ends; `Dialogue.run` lets it talk until it ends by
itself or the input does, by recursion on the lines that are still unread.

`run_append` is the heart of it: a dialogue that ends by itself leaves the lines behind its last one
untouched.
-/

set_option autoImplicit false

namespace DeskShell.Terminal

open Files

/-- The effect of one line: what is written, the state reached, and whether the dialogue ends with
it. -/
structure Turn (σ : Type) where
  written : Transcript
  state : σ
  last : Bool := false

/-- An application that is driven by lines. -/
structure Dialogue (σ : Type) where
  /-- The text in front of the next line. -/
  prompt : σ → String
  /-- The effect of a line. -/
  hear : σ → String → Access (Turn σ)
  /-- What is written when the input ends in a state. -/
  atEnd : σ → Access Transcript

/-- How a dialogue comes to its end. -/
inductive Ending
  /-- It ends by itself. -/
  | finished
  | inputEnded
  /-- A line of the input is not text. -/
  | inputNotText
  deriving Repr, DecidableEq

/-- The end of a dialogue. -/
structure Outcome (σ : Type) where
  written : Transcript
  ending : Ending
  /-- The state in which the dialogue ended. -/
  state : σ
  unread : List RawLine
  tree : FileTree

namespace Outcome

variable {σ : Type}

def after (written : Transcript) (o : Outcome σ) : Outcome σ :=
  { o with written := written ++ o.written }

/-- The same outcome with lines behind those that are unread. -/
def followedBy (o : Outcome σ) (lines : List RawLine) : Outcome σ :=
  { o with unread := o.unread ++ lines }

end Outcome

namespace Dialogue

variable {σ : Type}

/-- Talk from a state on. -/
def run (d : Dialogue σ) (root : String) (s : σ) (t : FileTree) : List RawLine → Outcome σ
  | [] =>
      let (closing, t') := (d.atEnd s).run root t
      ⟨.say (d.prompt s) ++ closing, .inputEnded, s, [], t'⟩
  | raw :: rest =>
      match raw.text? with
      | none => ⟨.say (d.prompt s), .inputNotText, s, rest, t⟩
      | some line =>
          let (turn, t') := (d.hear s line).run root t
          let written := .say (d.prompt s) ++ turn.written
          if turn.last then ⟨written, .finished, turn.state, rest, t'⟩
          else (d.run root turn.state t' rest).after written

/-- Talk from an opening turn on. -/
def converse (d : Dialogue σ) (root : String) (opening : Access (Turn σ)) (t : FileTree)
    (lines : List RawLine) : Outcome σ :=
  let (turn, t') := opening.run root t
  if turn.last then ⟨turn.written, .finished, turn.state, lines, t'⟩
  else (d.run root turn.state t' lines).after turn.written

/-- Lines behind the last one that a dialogue hears change nothing and stay unread. -/
theorem run_append (d : Dialogue σ) (root : String) (s : σ) (t : FileTree)
    (lines more : List RawLine) (h : (d.run root s t lines).ending = .finished) :
    d.run root s t (lines ++ more) = (d.run root s t lines).followedBy more := by
  induction lines generalizing s t with
  | nil => simp [run] at h
  | cons raw rest ih =>
      rw [List.cons_append, run]
      rw [run] at h ⊢
      cases hraw : raw.text? with
      | none => simp [hraw] at h
      | some line =>
          simp only [hraw] at h ⊢
          by_cases hlast : ((d.hear s line).run root t).1.last = true
          · simp [hlast, Outcome.followedBy]
          · simp only [hlast, Bool.false_eq_true, if_false] at h ⊢
            rw [ih _ _ h]
            rfl

end Dialogue

end DeskShell.Terminal
