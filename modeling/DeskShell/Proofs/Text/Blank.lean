import DeskShell.Text.Blank
import Mathlib.Data.List.TakeWhile

/-!
# Runs and trimming

A run of characters of one class goes up to the first character of another (`takeWhile_run`,
`dropWhile_run`). What `trim` leaves of a text is a part of the text without blanks at its ends
(`trim_spec`), and a text without blanks at its ends is left alone (`trim_eq_self`). A run that
holds no separator goes to the first piece of what stands behind it (`pieces_append_of_uncut`).
-/

set_option autoImplicit false

namespace DeskShell.Text

/-! ## Runs -/

section Runs

variable {p : Char → Bool} {run : List Char}

theorem takeWhile_run (h : ∀ c ∈ run, p c = true) {b : Char} (hb : p b = false)
    (rest : List Char) : (run ++ b :: rest).takeWhile p = run := by
  rw [List.takeWhile_append_of_pos h, List.takeWhile_cons_of_neg (by simp [hb]), List.append_nil]

theorem dropWhile_run (h : ∀ c ∈ run, p c = true) {b : Char} (hb : p b = false)
    (rest : List Char) : (run ++ b :: rest).dropWhile p = b :: rest := by
  rw [List.dropWhile_append_of_pos h, List.dropWhile_cons_of_neg (by simp [hb])]

end Runs

/-! ## Trimming -/

/-- A text is what is left of it when its last characters are dropped, and those; and what is left
does not end in a character that would be dropped. -/
theorem dropWhile_reverse_spec (p : Char → Bool) (cs : List Char) :
    ∃ dropped, cs = (cs.reverse.dropWhile p).reverse ++ dropped ∧
      ∀ c ∈ (cs.reverse.dropWhile p).reverse.getLast?, p c = false := by
  refine ⟨(cs.reverse.takeWhile p).reverse, ?_, ?_⟩
  · rw [← List.reverse_append, List.takeWhile_append_dropWhile, List.reverse_reverse]
  · intro c hc
    rw [List.getLast?_reverse] at hc
    have hhead := List.head?_dropWhile_not p cs.reverse
    rw [hc] at hhead
    simpa using hhead

theorem dropWhile_of_head? {p : Char → Bool} {cs : List Char} (h : ∀ c ∈ cs.head?, p c = false) :
    cs.dropWhile p = cs := by
  cases cs with
  | nil => rfl
  | cons c cs => simp [h c rfl]

theorem trimEnd_of_getLast? {cs : List Char} (h : ∀ c ∈ cs.getLast?, isBlank c = false) :
    trimEnd cs = cs := by
  have hhead : ∀ c ∈ cs.reverse.head?, isBlank c = false := by rwa [List.head?_reverse]
  rw [trimEnd, dropWhile_of_head? hhead, List.reverse_reverse]

/-- A trimmed text is part of the text, and has no blank at either end. -/
theorem trim_spec (cs : List Char) : trim cs <:+: cs ∧
    (∀ c ∈ (trim cs).head?, isBlank c = false) ∧ ∀ c ∈ (trim cs).getLast?, isBlank c = false := by
  have hstart : ∀ c ∈ (trimStart cs).head?, isBlank c = false := by
    intro c hc
    have hhead := List.head?_dropWhile_not isBlank cs
    rw [trimStart] at hc
    rw [hc] at hhead
    simpa using hhead
  obtain ⟨dropped, hdropped, hlast⟩ := dropWhile_reverse_spec isBlank (trimStart cs)
  rw [← trimEnd, ← trim] at hdropped hlast
  refine ⟨?_, ?_, hlast⟩
  · have hbegins : trim cs <+: trimStart cs := ⟨dropped, hdropped.symm⟩
    exact hbegins.isInfix.trans (List.dropWhile_suffix _).isInfix
  · intro c hc
    refine hstart c ?_
    rw [hdropped]
    cases htrim : trim cs with
    | nil => simp [htrim] at hc
    | cons d ds => simpa [htrim] using hc

/-- What is dropped at the end of a text is blank, and what is left does not end in a blank. -/
theorem trimEnd_spec (cs : List Char) :
    (∃ blanks, (∀ c ∈ blanks, isBlank c = true) ∧ cs = trimEnd cs ++ blanks) ∧
      ∀ c ∈ (trimEnd cs).getLast?, isBlank c = false := by
  obtain ⟨-, -, hlast⟩ := dropWhile_reverse_spec isBlank cs
  refine ⟨⟨(cs.reverse.takeWhile isBlank).reverse, fun c hc => ?_, ?_⟩, hlast⟩
  · exact List.mem_takeWhile_imp (List.mem_reverse.1 hc)
  · rw [trimEnd, ← List.reverse_append, List.takeWhile_append_dropWhile, List.reverse_reverse]

/-- What is left of a text, if anything, ends in a character that is no blank. -/
theorem exists_trimEnd_eq_concat {cs : List Char} (h : trimEnd cs ≠ []) :
    ∃ start c, trimEnd cs = start ++ [c] ∧ isBlank c = false := by
  obtain ⟨start, c, hconcat⟩ := (List.eq_nil_or_concat (trimEnd cs)).resolve_left h
  rw [List.concat_eq_append] at hconcat
  refine ⟨start, c, hconcat, (trimEnd_spec cs).2 c ?_⟩
  rw [hconcat]
  simp

theorem trim_eq_self {cs : List Char} (hhead : ∀ c ∈ cs.head?, isBlank c = false)
    (hlast : ∀ c ∈ cs.getLast?, isBlank c = false) : trim cs = cs := by
  rw [trim, trimStart, dropWhile_of_head? hhead, trimEnd_of_getLast? hlast]

@[simp]
theorem trim_trim (cs : List Char) : trim (trim cs) = trim cs := by
  obtain ⟨-, hhead, hlast⟩ := trim_spec cs
  exact trim_eq_self hhead hlast

theorem trim_append_of_blank (cs : List Char) {blanks : List Char}
    (h : ∀ c ∈ blanks, isBlank c = true) : trim (cs ++ blanks) = trim cs := by
  have hend : ∀ ds : List Char, trimEnd (ds ++ blanks) = trimEnd ds := by
    intro ds
    have hreverse : blanks.reverse.dropWhile isBlank = [] :=
      List.dropWhile_eq_nil_iff.2 fun c hc => h c (List.mem_reverse.1 hc)
    rw [trimEnd, List.reverse_append, List.dropWhile_append, hreverse]
    rfl
  rw [trim, trimStart, List.dropWhile_append]
  split
  · next hempty =>
      rw [List.dropWhile_eq_nil_iff.2 h, trim, trimStart, List.isEmpty_iff.1 hempty]
  · exact hend _

/-! ## Cutting -/

theorem pieces_append_of_uncut {cut : Char → Bool} {start cs first : List Char}
    {others : List (List Char)} (hstart : ∀ c ∈ start, cut c = false)
    (h : pieces cut cs = first :: others) :
    pieces cut (start ++ cs) = (start ++ first) :: others := by
  induction start with
  | nil => exact h
  | cons c start ih =>
      obtain ⟨hc, hrest⟩ := List.forall_mem_cons.1 hstart
      simp [pieces, hc, ih hrest]

end DeskShell.Text
