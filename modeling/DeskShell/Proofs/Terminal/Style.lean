import DeskShell.Terminal.Style
import Mathlib.Data.List.Basic

/-!
# What styled text shows

A terminal does not show escape sequences. `unstyled` takes them out of a text, and `Style.Shows`
says which text is left of a fragment, wherever the fragment stands. Fragments can be put together
and marked over again (`Shows.append`, `Shows.mark`), since a marking surrounds them with whole
sequences.
-/

set_option autoImplicit false

namespace DeskShell.Terminal

/-! ## Taking the sequences out -/

/-- A text without its escape sequences, from a place that lies inside of one or not. A sequence
starts with an escape character, and the letter `m` ends it. -/
def unstyledFrom (inside : Bool) : List Char → List Char
  | [] => []
  | c :: cs =>
      if inside then unstyledFrom (c != 'm') cs
      else if c = '\x1b' then unstyledFrom true cs
      else c :: unstyledFrom false cs

def unstyled (cs : List Char) : List Char := unstyledFrom false cs

theorem unstyledFrom_inside {cs : List Char} (h : 'm' ∉ cs) (rest : List Char) :
    unstyledFrom true (cs ++ 'm' :: rest) = unstyled rest := by
  induction cs with
  | nil => rfl
  | cons c cs ih =>
      rw [List.mem_cons, not_or] at h
      have hc : (c != 'm') = true := by simpa using Ne.symm h.1
      rw [List.cons_append, unstyledFrom, if_pos rfl, hc]
      exact ih h.2

theorem unstyled_append {cs : List Char} (h : '\x1b' ∉ cs) (rest : List Char) :
    unstyled (cs ++ rest) = cs ++ unstyled rest := by
  induction cs with
  | nil => rfl
  | cons c cs ih =>
      rw [List.mem_cons, not_or] at h
      have hc : c ≠ '\x1b' := Ne.symm h.1
      show unstyledFrom false (c :: (cs ++ rest)) = c :: (cs ++ unstyled rest)
      rw [unstyledFrom, if_neg (by decide), if_neg hc, ← ih h.2]
      rfl

namespace Style

/-! ## What a fragment shows -/

/-- A written fragment shows a text: the fragment leaves the text, and nothing of it reaches into
what follows. -/
def Shows (written shown : List Char) : Prop :=
  ∀ rest, unstyled (written ++ rest) = shown ++ unstyled rest

theorem Shows.unstyled_eq {written shown : List Char} (h : Shows written shown) :
    unstyled written = shown := by
  have hnil := h []
  rw [List.append_nil] at hnil
  rw [hnil]
  exact List.append_nil shown

theorem shows_plain {cs : List Char} (h : '\x1b' ∉ cs) : Shows cs cs := unstyled_append h

theorem Shows.append {written shown written' shown' : List Char} (h : Shows written shown)
    (h' : Shows written' shown') : Shows (written ++ written') (shown ++ shown') := by
  intro rest
  rw [List.append_assoc, h, h', List.append_assoc]

theorem Shows.flatMap {α : Type} {written shown : α → List Char} {xs : List α}
    (h : ∀ x ∈ xs, Shows (written x) (shown x)) :
    Shows (xs.flatMap written) (xs.flatMap shown) := by
  induction xs with
  | nil => exact fun _ => rfl
  | cons x xs ih =>
      rw [List.flatMap_cons, List.flatMap_cons]
      exact (h x (by simp)).append (ih fun y hy => h y (by simp [hy]))

theorem Shows.of_sequences {cs : List Char} (h : Sequences cs) : Shows cs [] := by
  induction h with
  | nil => exact fun _ => rfl
  | @cons attributes others hclosed _ ih =>
      intro rest
      have hbracket : 'm' ∉ '[' :: attributes := by simpa using hclosed
      calc unstyled ('\x1b' :: '[' :: (attributes ++ 'm' :: others) ++ rest)
          = unstyledFrom true (('[' :: attributes) ++ 'm' :: (others ++ rest)) := by
            simp [unstyled, unstyledFrom]
        _ = unstyled (others ++ rest) := unstyledFrom_inside hbracket _
        _ = [] ++ unstyled rest := ih rest

theorem Shows.mark {text : String} {shown : List Char} (h : Shows text.toList shown)
    (style : Style) (kind : Palette → Marking) : Shows (style.mark kind text).toList shown := by
  cases style with
  | plain => exact h
  | marked palette =>
      obtain ⟨before, after, hbefore, hafter, hmarked⟩ := (kind palette).surrounds text
      show Shows ((kind palette).apply text).toList shown
      rw [hmarked]
      simpa using ((Shows.of_sequences hbefore).append h).append (Shows.of_sequences hafter)

/-- A fragment shows the same whether it is marked or not. -/
theorem Shows.ite {p : Prop} [Decidable p] {marked text : String} {shown : List Char}
    (hmarked : Shows marked.toList shown) (h : Shows text.toList shown) :
    Shows (if p then marked else text).toList shown := by
  split
  · exact hmarked
  · exact h

end Style

end DeskShell.Terminal
