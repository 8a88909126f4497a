import DeskShell.Settings.Words

/-!
# Words of a settings line

Where a line has no quotes its words are its non-empty pieces between ASCII blanks
(`words_of_unquoted`). Where words are set in quotes, with blanks between them, each word is read
back as it was, whatever characters it holds (`words_of_setOut`).
-/

set_option autoImplicit false

namespace DeskShell.Settings

open Text

/-! ## Without quotes -/

/-- Outside quotes every character but a quote and a blank goes to the current word, also a
backslash. -/
theorem split_cons_of_unquoted {c : Char} (hquote : c ≠ '"') (hblank : isAsciiBlank c = false)
    (reversed rest : List Char) :
    split false reversed (c :: rest) = split false (c :: reversed) rest := by
  by_cases hback : c = '\\'
  · subst hback
    cases rest with
    | nil => rfl
    | cons d ds => simp [split]
  · rw [split]
    · simp [hblank]
    · exact hquote
    · exact fun h => absurd h hback
    · exact fun d ds h => absurd h hback

theorem split_append_of_unquoted {start : List Char}
    (h : ∀ c ∈ start, c ≠ '"' ∧ isAsciiBlank c = false) (reversed rest : List Char) :
    split false reversed (start ++ rest) = split false (start.reverse ++ reversed) rest := by
  induction start generalizing reversed with
  | nil => rfl
  | cons c start ih =>
      obtain ⟨⟨hquote, hblank⟩, hstart⟩ := List.forall_mem_cons.1 h
      rw [List.cons_append, split_cons_of_unquoted hquote hblank, ih hstart, List.reverse_cons,
        List.append_assoc]
      rfl

theorem split_cons_of_blank {c : Char} (hblank : isAsciiBlank c = true)
    (reversed rest : List Char) :
    split false reversed (c :: rest) = close reversed (words rest) := by
  have hquote : c ≠ '"' := by
    rintro rfl
    exact absurd hblank (by decide)
  have hback : c ≠ '\\' := by
    rintro rfl
    exact absurd hblank (by decide)
  rw [split]
  · simp [hblank, words]
  · exact hquote
  · exact fun h => absurd h hback
  · exact fun d ds h => absurd h hback

/-- Reading without quotes is cutting at blanks: the current word goes on with the first piece. -/
theorem split_of_unquoted {cs : List Char} (h : '"' ∉ cs) (reversed : List Char) :
    ∃ first others, Text.pieces isAsciiBlank cs = first :: others ∧
      split false reversed cs
        = ((reversed.reverse ++ first) :: others).filter (fun w => !w.isEmpty) := by
  induction cs generalizing reversed with
  | nil =>
      refine ⟨[], [], rfl, ?_⟩
      cases reversed <;> simp [split, close]
  | cons c rest ih =>
      obtain ⟨hquote, hrest⟩ := not_or.1 (fun hmem => h (List.mem_cons.2 hmem))
      cases hblank : isAsciiBlank c with
      | true =>
          obtain ⟨first, others, hpieces, hsplit⟩ := ih hrest []
          refine ⟨[], first :: others, by simp [Text.pieces, hblank, hpieces], ?_⟩
          rw [split_cons_of_blank hblank, words, hsplit]
          cases reversed <;> simp [close]
      | false =>
          obtain ⟨first, others, hpieces, hsplit⟩ := ih hrest (c :: reversed)
          refine ⟨c :: first, others, by simp [Text.pieces, hblank, hpieces], ?_⟩
          rw [split_cons_of_unquoted (Ne.symm hquote) hblank, hsplit]
          simp

/-- **The words of a text without quotes** are its non-empty pieces between blanks. -/
theorem words_of_unquoted {cs : List Char} (h : '"' ∉ cs) :
    words cs = (Text.pieces isAsciiBlank cs).filter fun w => !w.isEmpty := by
  obtain ⟨first, others, hpieces, hsplit⟩ := split_of_unquoted h []
  rw [words, hsplit, hpieces, List.reverse_nil, List.nil_append]

/-! ## In quotes -/

theorem words_append_of_blank {blanks : List Char} (h : ∀ c ∈ blanks, isAsciiBlank c = true)
    (rest : List Char) : words (blanks ++ rest) = words rest := by
  induction blanks with
  | nil => rfl
  | cons c blanks ih =>
      obtain ⟨hc, hblanks⟩ := List.forall_mem_cons.1 h
      rw [List.cons_append, words, split_cons_of_blank hc, ih hblanks]
      rfl

/-- Whether a text sets out words: each of them in quotes, with ASCII blanks between one and the
next. -/
inductive SetOut : List (List Char) → List Char → Prop
  | none : SetOut [] []
  | last (word : List Char) : SetOut [word] (quoted word)
  | more {word next : List Char} {others : List (List Char)} {blanks text : List Char}
      (hne : blanks ≠ []) (hblanks : ∀ c ∈ blanks, isAsciiBlank c = true)
      (h : SetOut (next :: others) text) :
      SetOut (word :: next :: others) (quoted word ++ (blanks ++ text))

/-- **Words that are set out in quotes** are read back. -/
theorem words_of_setOut {ws : List (List Char)} {text : List Char} (h : SetOut ws text)
    (hne : ∀ word ∈ ws, word ≠ []) : words text = ws := by
  induction h with
  | none => rfl
  | last word =>
      have hword : word ≠ [] := hne word (List.mem_singleton_self _)
      have hread := split_quoted word [] []
      rw [List.append_nil, List.append_nil] at hread
      rw [words, hread]
      simp [split, close, hword]
  | @more word next others blanks text hblanksNe hblanks h ih =>
      obtain ⟨hword, hrest⟩ := List.forall_mem_cons.1 hne
      -- the first of the blanks closes the word, and the others are passed over
      obtain ⟨blank, more, rfl⟩ := List.exists_cons_of_ne_nil hblanksNe
      obtain ⟨hblank, hmore⟩ := List.forall_mem_cons.1 hblanks
      rw [words, split_quoted, List.append_nil, List.cons_append, split_cons_of_blank hblank,
        words_append_of_blank hmore, ih hrest]
      simp [close, hword]

end DeskShell.Settings
