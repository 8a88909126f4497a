import DeskShell.Terminal.Style

/-!
# The palette of a terminal with 256 colours

Each attribute of a fragment has a sequence in front of it, and one more behind the fragment resets
them all. Where colours are not welcome the sequence of a colour is there all the same, but names
none.
-/

set_option autoImplicit false

namespace DeskShell.Terminal

inductive Attribute
  | yellow
  | red
  /-- A colour that is not named. -/
  | noColor
  | bold
  | inverse
  /-- None of the others any more. -/
  | reset
  deriving Repr, DecidableEq

namespace Attribute

def code : Attribute → String
  | yellow => "38;5;11"
  | red => "38;5;9"
  | noColor => ""
  | bold => "1"
  | inverse => "7"
  | reset => "0"

theorem m_notMem_toList_code (a : Attribute) : 'm' ∉ a.code.toList := by
  cases a <;> decide

def sequences (attributes : List Attribute) : List Char :=
  attributes.flatMap fun a => '\x1b' :: '[' :: (a.code.toList ++ ['m'])

theorem sequences_sequences (attributes : List Attribute) :
    Sequences (sequences attributes) := by
  induction attributes with
  | nil => exact .nil
  | cons a rest ih =>
      have happend : sequences (a :: rest)
          = '\x1b' :: '[' :: (a.code.toList ++ 'm' :: sequences rest) := by
        simp [sequences]
      rw [happend]
      exact .cons a.m_notMem_toList_code ih

end Attribute

def Marking.ansi (attributes : List Attribute) : Marking where
  apply text :=
    String.ofList (Attribute.sequences attributes) ++ text
      ++ String.ofList (Attribute.sequences [.reset])
  surrounds text :=
    ⟨Attribute.sequences attributes, Attribute.sequences [.reset],
      Attribute.sequences_sequences _, Attribute.sequences_sequences _,
      by simp [String.toList_append]⟩

/-- The palette of the terminal, with or without colours. -/
def Palette.ansi (colors : Bool) : Palette where
  eventDay := .ansi [if colors then .yellow else .noColor, .bold]
  today := .ansi [.inverse]
  error := .ansi [if colors then .red else .noColor, .bold]

end DeskShell.Terminal
