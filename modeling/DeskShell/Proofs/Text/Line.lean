import DeskShell.Text.Line
import Mathlib.Data.List.Basic

/-!
# Cutting into lines

What `lines` and `dropReturn` do to a text: no line holds a line feed, a text that is closed by a
line feed is cut independently of what follows it, and a carriage return is dropped exactly where
the text ends in one.
-/

set_option autoImplicit false

namespace DeskShell.Text

/-! ## Lines -/

theorem newline_notMem_of_mem_lines {cs line : List Char} (h : line ∈ lines cs) :
    '\n' ∉ line := by
  fun_induction lines cs generalizing line with
  | case1 => cases h
  | case2 rest ih =>
      rcases List.mem_cons.1 h with rfl | h
      · simp
      · exact ih h
  | case3 rest ih =>
      rcases List.mem_cons.1 h with rfl | h
      · simp
      · exact ih h
  | case4 c rest hc hreturn hlines ih =>
      rw [List.mem_singleton] at h
      subst h
      simpa using fun heq => hc heq.symm
  | case5 c rest hc hreturn first others hlines ih =>
      rw [hlines] at ih
      rcases List.mem_cons.1 h with rfl | h
      · have hfirst : '\n' ∉ first := ih (by simp)
        simpa [hfirst] using fun heq => hc heq.symm
      · exact ih (by simp [h])

/-- Characters that are closed by a line feed are cut into lines independently of what follows. -/
theorem lines_closed_append (cs rest : List Char) :
    lines (cs ++ '\n' :: rest) = lines (cs ++ ['\n']) ++ lines rest := by
  -- what stands behind the first line feed is shorter
  induction hlength : cs.length using Nat.strongRecOn generalizing cs with
  | ind n ih =>
      by_cases hmem : '\n' ∈ cs
      · obtain ⟨line, more, rfl, hline⟩ := List.eq_append_cons_of_mem hmem
        have hmore : more.length < n := by
          rw [← hlength, List.length_append, List.length_cons]
          omega
        rw [List.append_assoc, List.cons_append, lines_append_newline line _ hline,
          ih more.length hmore more rfl, List.append_assoc, List.cons_append,
          lines_append_newline line _ hline, List.cons_append]
      · rw [lines_append_newline cs rest hmem, lines_append_newline cs [] hmem]
        rfl

/-- A text that is not empty and has no line feed is one line, whatever it ends in. -/
theorem lines_of_newline_notMem {cs : List Char} (hne : cs ≠ []) (h : '\n' ∉ cs) :
    lines cs = [cs] := by
  induction cs with
  | nil => exact absurd rfl hne
  | cons c rest ih =>
      obtain ⟨hc, hrest⟩ := not_or.1 (fun hmem => h (List.mem_cons.2 hmem))
      have hnext : ∀ others, c = '\r' → rest ≠ '\n' :: others := by
        rintro others - rfl
        exact hrest (List.mem_cons_self ..)
      rw [lines_cons (Ne.symm hc) hnext]
      cases rest with
      | nil => rfl
      | cons d ds => rw [ih (List.cons_ne_nil d ds) hrest]

/-! ## Carriage returns -/

theorem dropReturn_eq_self_iff {cs : List Char} :
    dropReturn cs = cs ↔ cs.getLast? ≠ some '\r' := by
  unfold dropReturn
  split
  · next hlast =>
      have hne : cs ≠ [] := by
        rintro rfl
        cases hlast
      have hpos := List.length_pos_iff.2 hne
      constructor
      · intro h
        have hlength := congrArg List.length h
        rw [List.length_dropLast] at hlength
        omega
      · exact fun h => absurd hlast h
  · next hlast => exact ⟨fun _ => hlast, fun _ => rfl⟩

theorem dropReturn_append {cs ds : List Char} (h : ds ≠ []) :
    dropReturn (cs ++ ds) = cs ++ dropReturn ds := by
  unfold dropReturn
  rw [List.getLast?_append_of_ne_nil cs h, List.dropLast_append_of_ne_nil h]
  split <;> rfl

theorem length_dropReturn_le (cs : List Char) : (dropReturn cs).length ≤ cs.length := by
  unfold dropReturn
  split
  · rw [List.length_dropLast]
    omega
  · exact Nat.le_refl _

end DeskShell.Text
