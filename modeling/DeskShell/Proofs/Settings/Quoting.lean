import DeskShell.Proofs.Settings.Directives
import DeskShell.Proofs.Settings.Words

/-!
# Quoting loses nothing

A word in quotes, with a backslash before each quote and each backslash in it, is read back as it
was: among other words on a line, and as the value of a setting in either spelling. The reason is
that nothing in front of the closing quote ends the word, so that neither a blank nor an `=` in it
is seen, and that the quotes keep its ends from being trimmed.
-/

set_option autoImplicit false

namespace DeskShell.Settings

open Text

def quotedText (value : String) : String := String.ofList (quoted value.toList)

theorem newline_notMem_quoted {cs : List Char} (h : '\n' ∉ cs) : '\n' ∉ quoted cs := by
  have hescaped : '\n' ∉ escaped cs := by
    intro hmem
    obtain ⟨c, hc, hin⟩ := List.mem_flatMap.1 hmem
    have hsame : '\n' = c := by
      split at hin
      · simpa using hin
      · simpa using hin
    exact h (hsame ▸ hc)
  simp [quoted, hescaped]

/-- Behind the closing quote nothing is trimmed, and neither in front of the name. -/
theorem trim_append_quoted {name : List Char} (h : IsName name) (between : Char) (cs : List Char) :
    trim (name ++ between :: quoted cs) = name ++ between :: quoted cs := by
  refine trim_eq_self (h.isBlank_head?_append _) fun c hc => ?_
  have hlast : (name ++ between :: quoted cs).getLast? = some '"' := by
    have hsplit : name ++ between :: quoted cs
        = (name ++ between :: '"' :: escaped cs) ++ ['"'] := by
      simp [quoted]
    rw [hsplit, List.getLast?_concat]
  rw [hlast] at hc
  cases hc
  rfl

/-- **A quoted value is read whole**, whether `=` or a blank stands in front of it. -/
theorem assignment?_quoted {name : List Char} (h : IsName name) {cs : List Char} (hcs : cs ≠ [])
    {between : Char} (hbetween : between = '=' ∨ between = ' ') :
    assignment? (words (name ++ between :: quoted cs))
      = some (String.ofList name, String.ofList cs) := by
  have hplain : ∀ c ∈ name, c ≠ '"' ∧ isAsciiBlank c = false := fun c hc =>
    ⟨(h.plain c hc).2.2, h.isAsciiBlank_eq_false hc⟩
  have hjoined : joined [cs] = cs := by simp [joined]
  rcases hbetween with rfl | rfl
  · -- name, `=` and value are one word
    have hone : words (name ++ '=' :: quoted cs) = [name ++ '=' :: cs] := by
      have hread := split_quoted cs ('=' :: name.reverse) []
      rw [List.append_nil] at hread
      rw [words, split_append_of_unquoted hplain, List.append_nil,
        split_cons_of_unquoted (by decide) (by decide), hread]
      simp [split, close]
    rw [hone, h.assignment?_cons_equals, hjoined]
  · have htwo : words (name ++ ' ' :: quoted cs) = [name, cs] := by
      have hvalue : words (quoted cs) = [cs] :=
        words_of_setOut (.last cs) fun word hword => List.mem_singleton.1 hword ▸ hcs
      rw [words, split_append_of_unquoted hplain, List.append_nil,
        split_cons_of_blank (by decide), hvalue]
      simp [close, h.ne_nil]
    rw [htwo, h.assignment?_cons, hjoined]

/-- A text of one line with a quoted value changes the setting to the value. -/
theorem ofText_quoted {text name value : String} (hname : IsName name.toList) (hvalue : value ≠ "")
    (hline : '\n' ∉ value.toList) {between : Char} (hbetween : between = '=' ∨ between = ' ')
    (htext : text.toList = directive (name.toList ++ between :: quoted value.toList)) :
    ofText text = outcome (set {} name value) := by
  have hnewline : '\n' ∉ name.toList ++ between :: quoted value.toList := by
    have hinName : '\n' ∉ name.toList := by
      intro hmem
      exact absurd (hname.plain _ hmem).1 (by decide)
    have hne : '\n' ≠ between := by
      rintro rfl
      rcases hbetween with h | h <;> exact absurd h (by decide)
    simp [hinName, hne, newline_notMem_quoted hline]
  have hne : value.toList ≠ [] := by simpa using hvalue
  rw [ofText_directive htext hnewline, trim_append_quoted hname,
    assignment?_quoted hname hne hbetween, String.ofList_toList, String.ofList_toList]

/-- **Quoting loses nothing.** Non-empty words that are set out in quotes, with ASCII blanks between
them, are the words of the line; and a quoted value that is not empty and has no line feed is the
value of the root or the log directive, in both spellings, without a notice. -/
theorem quoted_read_back :
    (∀ ws text, (∀ word ∈ ws, word ≠ []) → SetOut ws text → words text = ws) ∧
    ∀ value : String, value ≠ "" → '\n' ∉ value.toList →
      ofText ("/set root=" ++ quotedText value) = ({ root := some value }, []) ∧
      ofText ("/set root " ++ quotedText value) = ({ root := some value }, []) ∧
      ofText ("/set log=" ++ quotedText value) = ({ log := some value }, []) ∧
      ofText ("/set log " ++ quotedText value) = ({ log := some value }, []) := by
  refine ⟨fun ws text hne h => words_of_setOut h hne, fun value hvalue hline => ?_⟩
  have hroot : IsName "root".toList := by decide
  have hlog : IsName "log".toList := by decide
  have hsetRoot : outcome (set {} "root" value) = ({ root := some value }, []) := by
    simp [set, lower, nonEmpty?, hvalue, outcome]
  have hsetLog : outcome (set {} "log" value) = ({ log := some value }, []) := by
    simp [set, lower, nonEmpty?, hvalue, outcome]
  refine ⟨?_, ?_, ?_, ?_⟩
  · rw [← hsetRoot]
    exact ofText_quoted hroot hvalue hline (.inl rfl) (by simp [quotedText, directive])
  · rw [← hsetRoot]
    exact ofText_quoted hroot hvalue hline (.inr rfl) (by simp [quotedText, directive])
  · rw [← hsetLog]
    exact ofText_quoted hlog hvalue hline (.inl rfl) (by simp [quotedText, directive])
  · rw [← hsetLog]
    exact ofText_quoted hlog hvalue hline (.inr rfl) (by simp [quotedText, directive])

/-- Two words with a blank and a tab between them, of which one holds a quote; and a value with all
that could end it or be trimmed. -/
theorem quoted_read_back_of_awkward :
    words "\"My Files\" \t\"a\\\"b\"".toList = ["My Files".toList, "a\"b".toList] ∧
      quotedText " =;a \"b\\\r" = "\" =;a \\\"b\\\\\r\"" ∧
      ofText "/set root=\" =;a \\\"b\\\\\r\"" = ({ root := some " =;a \"b\\\r" }, []) := by
  have hsetOut : SetOut ["My Files".toList, "a\"b".toList]
      (quoted "My Files".toList ++ ([' ', '\t'] ++ quoted "a\"b".toList)) :=
    .more (by decide) (List.all_eq_true.1 rfl) (.last _)
  have htext : quoted "My Files".toList ++ ([' ', '\t'] ++ quoted "a\"b".toList)
      = "\"My Files\" \t\"a\\\"b\"".toList := by decide
  have hquoted : quotedText " =;a \"b\\\r" = "\" =;a \\\"b\\\\\r\"" := by decide
  have hvalue := (quoted_read_back.2 " =;a \"b\\\r" (by decide) (by decide)).1
  rw [hquoted] at hvalue
  exact ⟨htext ▸ quoted_read_back.1 _ _ (by decide) hsetOut, hquoted, hvalue⟩

end DeskShell.Settings
