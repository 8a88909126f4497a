import DeskShell.Files.Path
import DeskShell.Proofs.Settings.Directives
import DeskShell.Proofs.Settings.Words

/-!
# The two spellings of a change

`/set name value` and `/set name=value` give the same settings and notices, with one exception: a
blank between the `=` and the value belongs to the value (`ofText_spellings`). Behind `=` the first
piece of the value is kept even if it is empty, and joining the words then puts a blank in front of
the next one; without `=` the empty pieces are all left out.
-/

set_option autoImplicit false

namespace DeskShell.Settings

open Text

/-! ## The value that is shown -/

/-- The words of a value without quotes: its pieces between ASCII blanks that are not empty. -/
def wording (value : List Char) : List (List Char) :=
  (Text.pieces isAsciiBlank (trimEnd value)).filter fun w => !w.isEmpty

/-- A value with single blanks between its words. -/
def shown (value : String) : String := String.ofList (joined (wording value.toList))

/-- Whether a value that is not blank has an ASCII blank in front of it. -/
def standsApart (value : String) : Bool :=
  value.toList.head?.any isAsciiBlank && value.toList.any fun c => !isBlank c

theorem wording_ne_nil {value : List Char} (h : trimEnd value ≠ []) : wording value ≠ [] := by
  obtain ⟨start, last, hvalue, hlast⟩ := exists_trimEnd_eq_concat h
  have hascii : isAsciiBlank last = false := by
    cases hblank : isAsciiBlank last with
    | false => rfl
    | true => exact absurd (isBlank_of_isAsciiBlank hblank) (by simp [hlast])
  -- the pieces hold all characters but the separators, so one of them holds the last one
  have hkept : last ∈ (Text.pieces isAsciiBlank (trimEnd value)).flatten := by
    rw [flatten_pieces, hvalue]
    simp [hascii]
  obtain ⟨piece, hpiece, hin⟩ := List.mem_flatten.1 hkept
  refine List.ne_nil_of_mem (List.mem_filter.2 ⟨hpiece, ?_⟩)
  simpa using List.ne_nil_of_mem hin

/-- The first piece of a value tells whether it stands apart: then it is empty, and the value has
words; otherwise it is empty only if there is no other piece. -/
theorem pieces_trimEnd_cases (value : String) :
    ∃ first others, Text.pieces isAsciiBlank (trimEnd value.toList) = first :: others ∧
      ((standsApart value = true ∧ first = [] ∧ wording value.toList ≠ []) ∨
        (standsApart value = false ∧ (first = [] → others = []))) := by
  obtain ⟨⟨blanks, hblanks, hsplit⟩, -⟩ := trimEnd_spec value.toList
  unfold standsApart
  cases hend : trimEnd value.toList with
  | nil =>
      have hnone : (value.toList.any fun c => !isBlank c) = false := by
        rw [hsplit, hend, List.nil_append, List.any_eq_false]
        intro c hc
        simp [hblanks c hc]
      exact ⟨[], [], rfl, .inr ⟨by rw [hnone, Bool.and_false], fun _ => rfl⟩⟩
  | cons c cs =>
      have hhead : value.toList.head? = some c := by
        rw [hsplit, hend]
        rfl
      rw [hhead, Option.any_some]
      cases hascii : isAsciiBlank c with
      | true =>
          have hne : trimEnd value.toList ≠ [] := by simp [hend]
          obtain ⟨start, last, hvalue, hlast⟩ := exists_trimEnd_eq_concat hne
          have hsome : (value.toList.any fun c => !isBlank c) = true := by
            rw [hsplit, hvalue]
            simp [hlast]
          exact ⟨[], Text.pieces isAsciiBlank cs, by simp [Text.pieces, hascii],
            .inl ⟨by rw [hsome]; rfl, rfl, wording_ne_nil hne⟩⟩
      | false =>
          cases hpieces : Text.pieces isAsciiBlank cs with
          | nil => exact absurd hpieces (pieces_ne_nil _ cs)
          | cons first others =>
              refine ⟨c :: first, others, by simp [Text.pieces, hascii, hpieces],
                .inr ⟨rfl, fun h => ?_⟩⟩
              cases h

/-! ## The two readings -/

section Readings

variable {name value : List Char} (hname : IsName name)
include hname

/-- Blanks at the end of the value do not count, and neither does one behind the name alone. -/
theorem words_trim_append {between : Char} (hbetween : between = '=' ∨ between = ' ') :
    words (trim (name ++ between :: value)) = words (name ++ between :: trimEnd value) := by
  obtain ⟨⟨blanks, hblanks, hsplit⟩, -⟩ := trimEnd_spec value
  have hend : trim (name ++ between :: value) = trim (name ++ between :: trimEnd value) := by
    rw [← trim_append_of_blank (name ++ between :: trimEnd value) hblanks, List.append_assoc,
      List.cons_append, ← hsplit]
  have hself : ∀ text last, name ++ between :: trimEnd value = text ++ [last] →
      isBlank last = false → trim (name ++ between :: trimEnd value)
        = name ++ between :: trimEnd value := by
    intro text last htext hlast
    refine trim_eq_self (hname.isBlank_head?_append _) fun c hc => ?_
    rw [htext, List.getLast?_concat] at hc
    cases hc
    exact hlast
  rw [hend]
  by_cases hempty : trimEnd value = []
  · rcases hbetween with rfl | rfl
    · rw [hself name '=' (by rw [hempty]) (by decide)]
    · -- the blank is trimmed, and it would end the name in any case
      have hplain : ∀ c ∈ name, c ≠ '"' ∧ isAsciiBlank c = false := fun c hc =>
        ⟨(hname.plain c hc).2.2, hname.isAsciiBlank_eq_false hc⟩
      have htrim : trim (name ++ [' ']) = name := by
        rw [trim_append_of_blank name (List.forall_mem_singleton.2 rfl)]
        refine trim_eq_self (fun c hc => ?_) (fun c hc => ?_)
        · exact (hname.plain c (List.mem_of_mem_head? hc)).1
        · exact (hname.plain c (List.mem_of_mem_getLast? hc)).1
      have hwords : ∀ rest, words (name ++ rest) = split false name.reverse rest := by
        intro rest
        rw [words, split_append_of_unquoted hplain, List.append_nil]
      have hname' := hwords []
      rw [List.append_nil] at hname'
      rw [hempty, htrim, hname', hwords [' '], split_cons_of_blank (by decide)]
      rfl
  · obtain ⟨start, last, hvalue, hlast⟩ := exists_trimEnd_eq_concat hempty
    rw [hself (name ++ between :: start) last (by simp [hvalue]) hlast]

variable (hquote : '"' ∉ value)
include hquote

theorem quote_notMem_append {between : Char} (hbetween : between = '=' ∨ between = ' ') :
    '"' ∉ name ++ between :: trimEnd value := by
  obtain ⟨⟨blanks, -, hsplit⟩, -⟩ := trimEnd_spec value
  have hvalue : '"' ∉ trimEnd value := by
    intro hmem
    exact hquote (hsplit ▸ List.mem_append_left _ hmem)
  have hinName : '"' ∉ name := fun hmem => (hname.plain _ hmem).2.2 rfl
  have hne : '"' ≠ between := by
    rintro rfl
    rcases hbetween with h | h <;> exact absurd h (by decide)
  simp [hinName, hne, hvalue]

/-- With a blank, the value is what its words make. -/
theorem assignment?_blank :
    assignment? (words (trim (name ++ ' ' :: value)))
      = some (String.ofList name, String.ofList (joined (wording value))) := by
  have hpieces : Text.pieces isAsciiBlank (name ++ ' ' :: trimEnd value)
      = name :: Text.pieces isAsciiBlank (trimEnd value) := by
    have hone := Files.Path.pieces_of_no_slash fun c hc => hname.isAsciiBlank_eq_false hc
    rw [Files.Path.pieces_append_cons (by decide), hone]
    rfl
  rw [words_trim_append hname (.inr rfl),
    words_of_unquoted (quote_notMem_append hname hquote (.inr rfl)), hpieces,
    List.filter_cons_of_pos (by simpa using hname.ne_nil), hname.assignment?_cons]
  rfl

/-- With `=`, the first piece of the value is kept even if it is empty. -/
theorem assignment?_equals {first : List Char} {others : List (List Char)}
    (hpieces : Text.pieces isAsciiBlank (trimEnd value) = first :: others) :
    assignment? (words (trim (name ++ '=' :: value)))
      = some (String.ofList name,
          String.ofList (joined (first :: others.filter fun w => !w.isEmpty))) := by
  have hplain : ∀ c ∈ name ++ ['='], isAsciiBlank c = false := by
    intro c hc
    rcases List.mem_append.1 hc with hc | hc
    · exact hname.isAsciiBlank_eq_false hc
    · rw [List.mem_singleton.1 hc]
      rfl
  have hwhole := pieces_append_of_uncut hplain hpieces
  rw [List.append_assoc, List.append_assoc, List.singleton_append, List.singleton_append] at hwhole
  rw [words_trim_append hname (.inl rfl),
    words_of_unquoted (quote_notMem_append hname hquote (.inl rfl)), hwhole,
    List.filter_cons_of_pos (by simp), hname.assignment?_cons_equals]

end Readings

/-! ## A blank in front of the value -/

theorem joined_cons_nil {ws : List (List Char)} (h : ws ≠ []) :
    joined ([] :: ws) = ' ' :: joined ws := by
  obtain ⟨first, others, rfl⟩ := List.exists_cons_of_ne_nil h
  simp [joined, List.intercalate]

theorem shown_ne_empty {value : String} (h : wording value.toList ≠ []) : shown value ≠ "" := by
  obtain ⟨first, others, hwording⟩ := List.exists_cons_of_ne_nil h
  have hfirst : first ≠ [] := by
    have hmem : first ∈ wording value.toList := by
      rw [hwording]
      exact List.mem_cons_self ..
    simpa using (List.mem_filter.1 hmem).2
  obtain ⟨c, cs, rfl⟩ := List.exists_cons_of_ne_nil hfirst
  intro hempty
  have hchars := congrArg String.toList hempty
  rw [shown, hwording, String.toList_ofList] at hchars
  cases others <;> simp [joined] at hchars

/-- The value that is read behind `=`: where it stands apart, one blank is left of the blanks in
front of it. -/
def shownBehindEquals (value : String) : String :=
  if standsApart value then " " ++ shown value else shown value

theorem joined_pieces (value : String) :
    ∃ first others, Text.pieces isAsciiBlank (trimEnd value.toList) = first :: others ∧
      String.ofList (joined (first :: others.filter fun w => !w.isEmpty))
        = shownBehindEquals value := by
  obtain ⟨first, others, hpieces, hcases⟩ := pieces_trimEnd_cases value
  refine ⟨first, others, hpieces, ?_⟩
  rw [shownBehindEquals]
  rcases hcases with ⟨hapart, rfl, hwording⟩ | ⟨hapart, hfirst⟩
  · have hothers : (others.filter fun w => !w.isEmpty) = wording value.toList := by
      rw [wording, hpieces]
      rfl
    rw [if_pos hapart, hothers, joined_cons_nil hwording, shown]
    exact String.toList_injective (by simp)
  · rw [if_neg (by simp [hapart]), shown, wording, hpieces]
    by_cases hempty : first = []
    · rw [hempty, hfirst hempty]
      rfl
    · rw [List.filter_cons_of_pos (by simpa using hempty)]

/-! ## The spellings compared -/

def settingNames : List String := ["root", "color", "colour", "log"]

theorem ofWord?_blank (value : String) : Terminal.Coloring.ofWord? (" " ++ value) = none := by
  have hlower : ∃ cs, (lower (" " ++ value)).toList = ' ' :: cs :=
    ⟨value.toList.map Char.toLower, by simp [lower]⟩
  obtain ⟨cs, hcs⟩ := hlower
  unfold Terminal.Coloring.ofWord?
  split <;> simp_all

/-- A blank in front of a value makes a difference to every setting there is, and none to a name
that is no setting. -/
theorem outcome_set_blank_iff (name : String) {value : String} (hvalue : value ≠ "") :
    outcome (set {} name (" " ++ value)) = outcome (set {} name value)
      ↔ lower name ∉ settingNames := by
  have hblank : " " ++ value ≠ "" := by
    intro h
    simpa using congrArg String.toList h
  have hne : " " ++ value ≠ value := by
    intro h
    have hlength := congrArg String.length h
    simp at hlength
  unfold set
  split
  · next hname => simp [hname, settingNames, outcome, nonEmpty?, hblank, hvalue, hne]
  -- a style is never set by a value that starts with a blank, and the notice quotes the value
  · next hname =>
      rw [ofWord?_blank]
      refine iff_of_false ?_ (by simp [hname, settingNames])
      cases Terminal.Coloring.ofWord? value <;> simp [outcome, hne]
  · next hname =>
      rw [ofWord?_blank]
      refine iff_of_false ?_ (by simp [hname, settingNames])
      cases Terminal.Coloring.ofWord? value <;> simp [outcome, hne]
  · next hname => simp [hname, settingNames, outcome, nonEmpty?, hblank, hvalue, hne]
  · next hroot hcolor hcolour hlog =>
      refine iff_of_true rfl fun hmem => ?_
      simp only [settingNames, List.mem_cons, List.not_mem_nil, or_false] at hmem
      rcases hmem with h | h | h | h
      · exact hroot h
      · exact hcolor h
      · exact hcolour h
      · exact hlog h

section Spellings

variable {name value : String} (hname : IsName name.toList) (hquote : '"' ∉ value.toList)
  (hline : '\n' ∉ value.toList)
include hname hline

theorem newline_notMem_append {between : Char} (hbetween : between = '=' ∨ between = ' ') :
    '\n' ∉ name.toList ++ between :: value.toList := by
  intro hmem
  rcases List.mem_append.1 hmem with hmem | hmem
  · exact absurd (hname.plain _ hmem).1 (by decide)
  · rcases List.mem_cons.1 hmem with rfl | hmem
    · rcases hbetween with h | h <;> exact absurd h (by decide)
    · exact hline hmem

include hquote

theorem ofText_blank :
    ofText ("/set " ++ name ++ " " ++ value) = outcome (set {} name (shown value)) := by
  have htext : ("/set " ++ name ++ " " ++ value).toList
      = directive (name.toList ++ ' ' :: value.toList) := by simp [directive]
  rw [ofText_directive htext (newline_notMem_append hname hline (.inr rfl)),
    assignment?_blank hname hquote, String.ofList_toList]
  rfl

theorem ofText_equals :
    ofText ("/set " ++ name ++ "=" ++ value)
      = outcome (set {} name (shownBehindEquals value)) := by
  have htext : ("/set " ++ name ++ "=" ++ value).toList
      = directive (name.toList ++ '=' :: value.toList) := by simp [directive]
  obtain ⟨first, others, hpieces, hjoined⟩ := joined_pieces value
  rw [ofText_directive htext (newline_notMem_append hname hline (.inl rfl)),
    assignment?_equals hname hquote hpieces, String.ofList_toList, hjoined]

end Spellings

/-- **The two spellings of a change.** With a blank behind the name, the value has single blanks
between its words. With `=` the settings and the notices are the same, unless a blank stands in
front of the value: one blank is then part of the value. So the spellings agree if and only if no
blank stands there or the name is no setting. -/
theorem ofText_spellings {name value : String} (hname : IsName name.toList)
    (hquote : '"' ∉ value.toList) (hline : '\n' ∉ value.toList) :
    ofText ("/set " ++ name ++ " " ++ value) = outcome (set {} name (shown value)) ∧
    ofText ("/set " ++ name ++ "=" ++ value)
      = outcome (set {} name (if standsApart value then " " ++ shown value else shown value)) ∧
    (ofText ("/set " ++ name ++ "=" ++ value) = ofText ("/set " ++ name ++ " " ++ value)
      ↔ standsApart value = false ∨ lower name ∉ settingNames) := by
  have hblank := ofText_blank hname hquote hline
  have hequals := ofText_equals hname hquote hline
  rw [shownBehindEquals] at hequals
  refine ⟨hblank, hequals, ?_⟩
  rw [hblank, hequals]
  cases hapart : standsApart value with
  | false => simp
  | true =>
      have hshown : shown value ≠ "" := by
        obtain ⟨-, -, -, ⟨-, -, hwording⟩ | ⟨hclash, -⟩⟩ := pieces_trimEnd_cases value
        · exact shown_ne_empty hwording
        · rw [hapart] at hclash
          cases hclash
      rw [if_pos rfl, outcome_set_blank_iff name hshown]
      simp

/-- Where the style of output is set with a blank behind the `=`, it is refused; without it, or with
the other spelling, it is not. An `=` in front of the value makes no difference. -/
theorem ofText_spellings_of_blank :
    IsName "color".toList ∧ standsApart " on" = true ∧
      ofText "/set color= on" = ({}, [⟨1, .invalidColor " on"⟩]) ∧
      ofText "/set color  on" = ({ color := .always }, []) ∧
      ofText "/set root==a  b " = ofText "/set root =a  b " := by
  have hcolor : IsName "color".toList := by decide
  have hroot : IsName "root".toList := by decide
  have hapart := @ofText_spellings "color" " on" hcolor (by decide) (by decide)
  have hclose := @ofText_spellings "root" "=a  b " hroot (by decide) (by decide)
  refine ⟨hcolor, by decide, ?_, ?_, hclose.2.2.2 (.inl (by decide))⟩
  · exact hapart.2.1.trans (by decide)
  · exact hapart.1.trans (by decide)

end DeskShell.Settings
