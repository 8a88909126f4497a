/-!
# Lines

A text is a sequence of lines, each ended by a line feed or by a carriage return and a line feed;
the end of the last line may be missing. `lines_append_newline` says that a closed line stands for
itself whatever follows it.
-/

set_option autoImplicit false

namespace DeskShell.Text

/-- The lines of a text, without their ends. A carriage return is part of a line end only where a
line feed follows it. -/
def lines : List Char → List (List Char)
  | [] => []
  | '\n' :: rest => [] :: lines rest
  | '\r' :: '\n' :: rest => [] :: lines rest
  | c :: rest =>
      match lines rest with
      | [] => [[c]]
      | line :: others => (c :: line) :: others

/-- A line without its last carriage return. -/
def dropReturn (line : List Char) : List Char :=
  if line.getLast? = some '\r' then line.dropLast else line

/-- A character that neither ends a line nor starts a line end goes to the first line of the
rest. -/
theorem lines_cons {c : Char} {rest : List Char} (hc : c ≠ '\n')
    (hr : ∀ others, c = '\r' → rest ≠ '\n' :: others) :
    lines (c :: rest) = match lines rest with
      | [] => [[c]]
      | line :: others => (c :: line) :: others := by
  rw [lines]
  · exact hc
  · exact fun others h => hr others h

/-- A line that holds no line feed and is closed by one is read as itself, less one carriage
return at its end, and the reading goes on behind it. -/
theorem lines_append_newline (line rest : List Char) (h : '\n' ∉ line) :
    lines (line ++ '\n' :: rest) = dropReturn line :: lines rest := by
  induction line with
  | nil => simp [lines, dropReturn]
  | cons c cs ih =>
      have hc : c ≠ '\n' := fun e => h (by simp [e])
      have hcs : '\n' ∉ cs := fun e => h (List.mem_cons_of_mem _ e)
      cases cs with
      | nil =>
          by_cases hr : c = '\r'
          · subst hr
            simp [lines, dropReturn]
          · rw [List.cons_append, List.nil_append, lines_cons hc (fun _ e => absurd e hr)]
            simp [lines, dropReturn, hr]
      | cons d ds =>
          have hd : d ≠ '\n' := fun e => hcs (by simp [e])
          rw [List.cons_append, lines_cons hc (by simp [hd]), ih hcs]
          by_cases hx : (d :: ds).getLast? = some '\r'
          · simp only [dropReturn, List.getLast?_cons_cons, hx, if_pos, List.dropLast_cons_cons]
          · simp only [dropReturn, List.getLast?_cons_cons, hx, if_neg, not_false_eq_true]

end DeskShell.Text
