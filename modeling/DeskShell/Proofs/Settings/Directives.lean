import DeskShell.Proofs.Text.Blank
import DeskShell.Proofs.Text.Line
import DeskShell.Settings.File

/-!
# A line that changes a setting

A text that is one line `/set …` changes one setting of a new set of settings, or is reported with
the number 1 (`ofText_directive`). What counts of the line are the words behind `/set`, blanks at
its end left out (`arguments?_directive`).
-/

set_option autoImplicit false

namespace DeskShell.Settings

open Text

/-! ## Names and values -/

/-- Whether a text can stand for the name of a setting. -/
structure IsName (name : List Char) : Prop where
  ne_nil : name ≠ []
  plain : ∀ c ∈ name, isBlank c = false ∧ c ≠ '=' ∧ c ≠ '"'

instance (name : List Char) : Decidable (IsName name) :=
  decidable_of_iff
    (name ≠ [] ∧ (name.all fun c => !isBlank c && (c != '=' && c != '"')) = true)
    ⟨fun h => ⟨h.1, by simpa using h.2⟩, fun h => ⟨h.ne_nil, by simpa using h.plain⟩⟩

namespace IsName

variable {name : List Char} (h : IsName name)
include h

theorem isAsciiBlank_eq_false {c : Char} (hc : c ∈ name) : isAsciiBlank c = false := by
  cases hblank : isAsciiBlank c with
  | false => rfl
  | true =>
      have hclash := isBlank_of_isAsciiBlank hblank
      rw [(h.plain c hc).1] at hclash
      cases hclash

theorem isEmpty_eq_false : name.isEmpty = false := by simpa using h.ne_nil

theorem isBlank_head?_append (rest : List Char) :
    ∀ c ∈ (name ++ rest).head?, isBlank c = false := by
  obtain ⟨first, others, rfl⟩ := List.exists_cons_of_ne_nil h.ne_nil
  intro c hc
  cases hc
  exact (h.plain _ (List.mem_cons_self ..)).1

/-- A first word without `=` is the name, and the other words are the value. -/
theorem assignment?_cons (others : List (List Char)) :
    assignment? (name :: others) = some (String.ofList name, String.ofList (joined others)) := by
  have hplain : ∀ c ∈ name, (c != '=') = true := fun c hc => by simpa using (h.plain c hc).2.1
  have hname : name.takeWhile (· != '=') = name := List.takeWhile_eq_self_iff.2 hplain
  have hrest : name.dropWhile (· != '=') = [] := List.dropWhile_eq_nil_iff.2 hplain
  simp only [assignment?, hname, hrest, h.isEmpty_eq_false, Bool.false_eq_true, if_false]

theorem assignment?_cons_equals (start : List Char) (others : List (List Char)) :
    assignment? ((name ++ '=' :: start) :: others)
      = some (String.ofList name, String.ofList (joined (start :: others))) := by
  have hplain : ∀ c ∈ name, (c != '=') = true := fun c hc => by simpa using (h.plain c hc).2.1
  have hname := takeWhile_run hplain (b := '=') (by decide) start
  have hrest := dropWhile_run hplain (b := '=') (by decide) start
  simp only [assignment?, hname, hrest, h.isEmpty_eq_false, Bool.false_eq_true, if_false]

end IsName

/-! ## Lines -/

/-- A line that starts with the command for a change. -/
def directive (arguments : List Char) : List Char := ['/', 's', 'e', 't', ' '] ++ arguments

/-- The settings after a text of one line that asks for a change, with the notices on it. -/
def outcome : Settings × Except Fault Unit → Settings × List Notice
  | (s, .ok ()) => (s, [])
  | (_, .error fault) => ({}, [⟨1, fault⟩])

/-- A change that is refused leaves the settings as they are. -/
theorem fst_set_of_error {s : Settings} {name value : String} {fault : Fault} :
    (s.set name value).2 = .error fault → (s.set name value).1 = s := by
  fun_cases set s name value <;> simp

/-- **The words behind the command** are those of what stands behind it, without the blanks around
it. -/
theorem arguments?_directive (arguments : List Char) :
    arguments? (directive arguments) = some (words (trim arguments)) := by
  obtain ⟨⟨blanks, hblanks, hsplit⟩, hlast⟩ := trimEnd_spec arguments
  have hbehind : trim arguments = trim (trimEnd arguments) := by
    rw [← trim_append_of_blank (trimEnd arguments) hblanks, ← hsplit]
  have hline : trim (directive arguments) = trim (directive (trimEnd arguments)) := by
    rw [← trim_append_of_blank (directive (trimEnd arguments)) hblanks, directive, directive,
      List.append_assoc, ← hsplit]
  rw [arguments?, hline, hbehind]
  by_cases hempty : trimEnd arguments = []
  · -- the blank behind the command is dropped as well
    rw [hempty]
    rfl
  · have hself : trim (directive (trimEnd arguments)) = directive (trimEnd arguments) := by
      refine trim_eq_self (fun c hc => ?_) (fun c hc => ?_)
      · cases hc
        rfl
      · rw [directive, List.getLast?_append_of_ne_nil _ hempty] at hc
        exact hlast c hc
    rw [hself]
    rfl

/-- **A text of one line** that asks for a change. -/
theorem ofText_directive {text : String} {arguments : List Char}
    (htext : text.toList = directive arguments) (h : '\n' ∉ arguments) :
    ofText text = outcome (match assignment? (words (trim arguments)) with
      | none => ({}, .error .missingName)
      | some (name, value) => set {} name value) := by
  have hne : directive arguments ≠ [] := by simp [directive]
  have hline : '\n' ∉ directive arguments := by simpa [directive] using h
  rw [ofText, htext, lines_of_newline_notMem hne hline]
  simp only [followAll, follow, arguments?_directive]
  generalize assignment? (words (trim arguments)) = assignment
  cases assignment with
  | none => rfl
  | some found =>
      obtain ⟨name, value⟩ := found
      simp only
      cases hset : set {} name value with
      | mk s result =>
          cases result with
          | ok _ => rfl
          | error fault =>
              have hsame := fst_set_of_error (congrArg Prod.snd hset)
              rw [hset] at hsame
              rw [show s = {} from hsame]
              rfl

end DeskShell.Settings
