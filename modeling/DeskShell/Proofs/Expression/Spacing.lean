import DeskShell.Proofs.Expression.Boundaries
import DeskShell.Proofs.Expression.Letters

/-!
# What does not matter in a text

Three things can be changed in a text without a change to its tokens: the case of its letters; the
blanks between its lexemes; and, where no operand has ended, the plus signs between them, which
stand for nothing. A gap may be put in at every point that no lexeme runs over.
-/

set_option autoImplicit false

namespace DeskShell.Expression

open Text

/-- Blanks and plus signs. -/
def IsGap (gap : List Char) : Prop := ∀ c ∈ gap, c = '+' ∨ isAsciiBlank c = true

theorem isGap_of_blank {gap : List Char} (h : ∀ c ∈ gap, isAsciiBlank c = true) : IsGap gap :=
  fun c hc => .inr (h c hc)

theorem Lexeme.cut_plus (cs : List Char) : cut ('+' :: cs) = .mark '+' :: cut cs :=
  cut_mark (by decide) cs

theorem endsLexeme_of_isAsciiBlank {c : Char} (h : isAsciiBlank c = true) : EndsLexeme c := by
  simp only [isAsciiBlank, Bool.or_eq_true, beq_iff_eq] at h
  rcases h with (((rfl | rfl) | rfl) | rfl) | rfl <;> decide

/-- A gap neither ends nor continues a lexeme of what stands in front of it. -/
theorem Lexeme.cut_append_gap {first second gap : List Char} {afterOperand : Bool}
    {tokens : List Token} (h : read? afterOperand (cut first) = some tokens)
    (hapart : Apart 0 first second) (hgap : IsGap gap) :
    cut (first ++ (gap ++ second)) = cut first ++ cut (gap ++ second) := by
  cases gap with
  | nil => exact cut_append_of_apart hapart
  | cons c gap =>
      rcases hgap c (List.mem_cons_self ..) with rfl | hblank
      · exact cut_append_mark h (by decide) _
      · exact cut_append (endsLexeme_of_isAsciiBlank hblank) _ _

theorem Lexeme.cut_blanks {gap : List Char} (h : ∀ c ∈ gap, isAsciiBlank c = true)
    (cs : List Char) : cut (gap ++ cs) = cut cs := by
  induction gap with
  | nil => rfl
  | cons c gap ih =>
      rw [List.forall_mem_cons] at h
      rw [List.cons_append, cut_blank h.1, ih h.2]

/-- Where no operand has ended, a gap stands for nothing. -/
theorem read?_gap {gap : List Char} (h : IsGap gap) (cs : List Char) :
    read? false (Lexeme.cut (gap ++ cs)) = read? false (Lexeme.cut cs) := by
  induction gap with
  | nil => rfl
  | cons c gap ih =>
      rw [IsGap, List.forall_mem_cons] at h
      rw [List.cons_append]
      rcases h.1 with rfl | hblank
      · rw [Lexeme.cut_plus]
        exact ih h.2
      · rw [Lexeme.cut_blank hblank, ih h.2]

/-- **A gap between two lexemes.** What is read in front of it are the first tokens; whether a plus
sign counts there depends on the last of them alone. -/
theorem read?_inserted {first second : List Char} {tokens : List Token}
    (h : read? false (Lexeme.cut (first ++ second)) = some tokens)
    (hapart : Apart 0 first second) :
    ∃ emitted, read? false (Lexeme.cut first) = some emitted ∧ emitted <+: tokens ∧
      ∀ gap, IsGap gap → (Token.lastEndsOperand false emitted = true →
          ∀ c ∈ gap, isAsciiBlank c = true) →
        read? false (Lexeme.cut (first ++ (gap ++ second))) = some tokens := by
  rw [Lexeme.cut_append_of_apart hapart, read?_append] at h
  obtain ⟨emitted, hemitted, hrest⟩ := Option.bind_eq_some_iff.1 h
  obtain ⟨later, hlater, rfl⟩ := Option.map_eq_some_iff.1 hrest
  refine ⟨emitted, hemitted, ⟨later, rfl⟩, fun gap hgap hblank => ?_⟩
  rw [Lexeme.cut_append_gap hemitted hapart hgap, read?_append, hemitted]
  have hsame : read? (Token.lastEndsOperand false emitted) (Lexeme.cut (gap ++ second))
      = some later := by
    cases hlast : Token.lastEndsOperand false emitted with
    | true => rw [Lexeme.cut_blanks (hblank hlast), ← hlast, hlater]
    | false => rw [read?_gap hgap, ← hlast, hlater]
  rw [Option.bind_some, hsame, Option.map_some]

/-- **What does not matter in a text.** The case of letters changes nothing, tokens or fault with
its position. Where a text has tokens, blanks may be put in at every point between its lexemes, and
plus signs besides where no operand has ended with the tokens in front of that point. -/
theorem tokenize_insignificant :
    (∀ source other : String, sameLetters source other = true →
      tokenize source = tokenize other) ∧
    ∀ (first second : String) (tokens : List Token), tokenize (first ++ second) = .ok tokens →
      Apart 0 first.toList second.toList →
      ∃ emitted, tokenize first = .ok emitted ∧ emitted <+: tokens ∧
        (∀ gap : String, (∀ c ∈ gap.toList, isAsciiBlank c = true) →
          tokenize (first ++ gap ++ second) = .ok tokens) ∧
        (Token.lastEndsOperand false emitted = false → ∀ gap : String,
          (∀ c ∈ gap.toList, c = '+' ∨ isAsciiBlank c = true) →
          tokenize (first ++ gap ++ second) = .ok tokens) := by
  refine ⟨fun source other h => tokenize_of_sameLetters h, fun first second tokens h hapart => ?_⟩
  obtain ⟨hread, hlength⟩ := tokenize_eq_ok_iff.1 h
  rw [String.toList_append] at hread
  obtain ⟨emitted, hemitted, hprefix, hinserted⟩ := read?_inserted hread hapart
  have htokens (gap : String)
      (hgap : read? false (Lexeme.cut (first.toList ++ (gap.toList ++ second.toList)))
        = some tokens) : tokenize (first ++ gap ++ second) = .ok tokens := by
    refine tokenize_eq_ok_iff.2 ⟨?_, hlength⟩
    rwa [String.toList_append, String.toList_append, List.append_assoc]
  refine ⟨emitted, tokenize_eq_ok_iff.2 ⟨hemitted, Nat.le_trans hprefix.length_le hlength⟩,
    hprefix, fun gap hblank => ?_, fun hlast gap hgap => ?_⟩
  · exact htokens gap (hinserted _ (isGap_of_blank hblank) fun _ => hblank)
  · refine htokens gap (hinserted _ hgap fun hends => ?_)
    rw [hlast] at hends
    cases hends

/-- A gap with plus signs behind an operator, a blank behind a numeral, and capitals. -/
theorem tokenize_insignificant_of_gaps :
    let tokens : List Token := [.number 2, .operator .mul, .neg, .number pi]
    tokenize "2E1*PI" = tokenize "2e1*pi" ∧
      tokenize "2*-pi" = .ok tokens ∧
      Apart 0 "2".toList "*-pi".toList ∧ tokenize "2 \t*-pi" = .ok tokens ∧
      Apart 0 "2*".toList "-pi".toList ∧ tokenize "2*+ \n+-pi" = .ok tokens := by
  intro tokens
  have htokens : tokenize "2*-pi" = .ok tokens := by decide +kernel
  have hfirst : Apart 0 "2".toList "*-pi".toList := by decide +kernel
  have hsecond : Apart 0 "2*".toList "-pi".toList := by decide +kernel
  obtain ⟨-, -, -, hblanks, -⟩ := tokenize_insignificant.2 "2" "*-pi" tokens htokens hfirst
  obtain ⟨emitted, hemitted, -, -, hgap⟩ :=
    tokenize_insignificant.2 "2*" "-pi" tokens htokens hsecond
  have hread : tokenize "2*" = .ok [.number 2, .operator .mul] := by decide +kernel
  obtain rfl := Except.ok.inj (hread.symm.trans hemitted)
  have hspaces : ∀ c ∈ " \t".toList, isAsciiBlank c = true := by simp [isAsciiBlank]
  have hsigns : ∀ c ∈ "+ \n+".toList, c = '+' ∨ isAsciiBlank c = true := by simp [isAsciiBlank]
  exact ⟨tokenize_insignificant.1 _ _ (by decide), htokens, hfirst, hblanks _ hspaces, hsecond,
    hgap (by decide) _ hsigns⟩

end DeskShell.Expression
