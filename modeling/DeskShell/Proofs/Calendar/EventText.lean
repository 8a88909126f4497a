import DeskShell.Calendar.EventBook
import DeskShell.Proofs.Text.Blank
import DeskShell.Proofs.Text.Line
import DeskShell.Proofs.Text.Numeral

/-!
# Events as lines of text

Which lines stand for an event, and which one, is said without the reader
(`Event.ofLine?_eq_some_iff`): blanks, three whole numbers with `-` between them that make a date, a
bar, and a description that is not empty. The first bar is the one behind the day, so a description
may hold bars and blanks at will.

An event is written as a line and read back from it. The date always comes back
(`Event.ofLine?_chars`); of the description only a carriage return at its end is lost, since
together with the line feed behind it, it is the end of a line (`Event.reread`). Which books come
back from their own texts is said by `EventBook.ofText_toText_eq_self_iff`.
-/

set_option autoImplicit false

namespace DeskShell.Calendar

open Text

namespace Event

/-! ## Reading a number -/

theorem readNumeral_of_isDigit {c : Char} (hc : c.isDigit = true) (cs : List Char) :
    readNumeral (c :: cs)
      = ((c :: cs).takeWhile Char.isDigit, (c :: cs).dropWhile Char.isDigit) := by
  unfold readNumeral
  split
  · next heq =>
      cases heq
      exact absurd hc (by decide)
  · next heq =>
      cases heq
      exact absurd hc (by decide)
  · rfl

theorem readNumeral_of_int? {cs : List Char} {z : Int} (h : int? cs = some z) {b : Char}
    (hb : b.isDigit = false) (rest : List Char) :
    readNumeral (cs ++ b :: rest) = (cs, b :: rest) := by
  obtain ⟨d, ds, hds, hcs⟩ := exists_digits_of_int? h
  have htake := takeWhile_run hds hb rest
  have hdrop := dropWhile_run hds hb rest
  rcases hcs with rfl | rfl | rfl
  · rw [List.cons_append, readNumeral, htake, hdrop]
  · rw [List.cons_append, readNumeral, htake, hdrop]
  · rw [List.cons_append] at htake hdrop ⊢
    rw [readNumeral_of_isDigit (hds d (by simp)), htake, hdrop]

theorem eq_append_of_readNumeral {cs numeral rest : List Char}
    (h : readNumeral cs = (numeral, rest)) : cs = numeral ++ rest := by
  unfold readNumeral at h
  split at h <;> cases h
  · rw [List.cons_append, List.takeWhile_append_dropWhile]
  · rw [List.cons_append, List.takeWhile_append_dropWhile]
  · rw [List.takeWhile_append_dropWhile]

/-! ## Reading an event -/

/-- A line of blanks, three whole numbers with `-` between them, a bar and a description. -/
structure Spells (line blanks year month day description : List Char) : Prop where
  line_eq : line = blanks ++ (year ++ '-' :: (month ++ '-' :: (day ++ '|' :: description)))
  isBlank : ∀ c ∈ blanks, isBlank c = true

theorem ofLine?_of_spells {line blanks year month day description : List Char}
    (h : Spells line blanks year month day description) {y : Int} {m d : Nat}
    (hyear : int? year = some y) (hmonth : nat? month = some m) (hday : nat? day = some d) :
    ofLine? line = (Date.ofParts? y m d).bind fun date =>
      if description.isEmpty then none else some (clipped date (String.ofList description)) := by
  -- each number is read up to the character behind it
  have htrim : trimStart line = year ++ '-' :: (month ++ '-' :: (day ++ '|' :: description)) := by
    rw [h.line_eq, trimStart, List.dropWhile_append_of_pos h.isBlank]
    exact trimStart_of_int? hyear _
  rw [ofLine?, htrim, readNumeral_of_int? hyear (by decide)]
  simp only [readNumeral_of_int? (int?_of_nat? hmonth) (show '-'.isDigit = false by decide),
    readNumeral_of_int? (int?_of_nat? hday) (show '|'.isDigit = false by decide), hyear, hmonth,
    hday]
  rfl

/-- **The lines that stand for an event**, and the event: the numbers make its date, and the
description, which is not empty, is cut to its largest length. -/
theorem ofLine?_eq_some_iff {line : List Char} {e : Event} :
    ofLine? line = some e ↔ ∃ blanks year month day description,
      Spells line blanks year month day description ∧ int? year = some e.date.year ∧
        nat? month = some e.date.month ∧ nat? day = some e.date.day ∧ description ≠ [] ∧
          e = clipped e.date (String.ofList description) := by
  constructor
  · intro h
    unfold ofLine? at h
    split at h
    · next year rest hyear =>
        split at h
        · next month rest' hmonth =>
            split at h
            · next day description hday =>
                simp only [Option.bind_eq_bind, Option.bind_eq_some_iff] at h
                obtain ⟨y, hy, m, hm, d, hd, date, hdate, h⟩ := h
                obtain ⟨rfl, rfl, rfl⟩ := Date.ofParts?_eq_some_iff.1 hdate
                split at h
                · cases h
                · next hne =>
                    cases h
                    refine ⟨line.takeWhile isBlank, year, month, day, description, ⟨?_, ?_⟩, hy, hm,
                      hd, by simpa using hne, rfl⟩
                    · rw [← eq_append_of_readNumeral hday, ← eq_append_of_readNumeral hmonth,
                        ← eq_append_of_readNumeral hyear]
                      exact List.takeWhile_append_dropWhile.symm
                    · exact fun c hc => List.all_eq_true.1 List.all_takeWhile c hc
            · cases h
        · cases h
    · cases h
  · rintro ⟨blanks, year, month, day, description, h, hyear, hmonth, hday, hne, he⟩
    have hdate : Date.ofParts? e.date.year e.date.month e.date.day = some e.date :=
      DateParts.toDate?_ofDate e.date
    have hempty : description.isEmpty = false := by simpa using hne
    rw [ofLine?_of_spells h hyear hmonth hday, hdate, Option.bind_some, hempty, he]
    rfl

/-- **A line with a written date** stands for an event on that date, unless nothing follows the
bar. -/
theorem ofLine?_chars (d : Date) (description : List Char) :
    ofLine? ((DateParts.ofDate d).chars ++ '|' :: description)
      = if description.isEmpty then none else some (clipped d (String.ofList description)) := by
  have hline : Spells ((DateParts.ofDate d).chars ++ '|' :: description) [] (zeroPadded 4 d.year)
      (zeroPadded 2 d.month) (zeroPadded 2 d.day) description :=
    ⟨by simp [DateParts.chars, DateParts.ofDate], by simp⟩
  have hdate : Date.ofParts? d.year d.month d.day = some d := DateParts.toDate?_ofDate d
  rw [ofLine?_of_spells hline (int?_zeroPadded 4 d.year) (nat?_zeroPadded 2 d.month)
    (nat?_zeroPadded 2 d.day), hdate, Option.bind_some]

/-! ## Events that are written -/

/-- Whether an event has a description that a line of the file can hold. -/
structure Storable (e : Event) : Prop where
  ne_nil : e.description.toList ≠ []
  newline_notMem : '\n' ∉ e.description.toList
  length_le : e.description.toList.length ≤ maxDescription

theorem clip_toList (description : String) :
    (clip description).toList = description.toList.take maxDescription := by
  rw [clip, String.toList_ofList]

theorem storable_of_clip {date : Date} {description : String} (hne : description.toList ≠ [])
    (hnewline : '\n' ∉ description.toList) : Storable ⟨date, clip description⟩ := by
  refine ⟨?_, ?_, ?_⟩
  · simpa [clip_toList, maxDescription] using hne
  · rw [clip_toList]
    exact fun hmem => hnewline (List.mem_of_mem_take hmem)
  · rw [clip_toList]
    exact List.length_take_le _ _

theorem storable_of_ofLine? {line : List Char} {e : Event} (hline : '\n' ∉ line)
    (h : ofLine? line = some e) : e.Storable := by
  obtain ⟨blanks, year, month, day, description, hspells, -, -, -, hne, he⟩ :=
    ofLine?_eq_some_iff.1 h
  rw [he]
  refine storable_of_clip ?_ ?_
  · rwa [String.toList_ofList]
  · rw [String.toList_ofList]
    refine fun hmem => hline ?_
    rw [hspells.line_eq]
    simp [hmem]

def EndsInReturn (e : Event) : Prop := e.description.toList.getLast? = some '\r'

instance (e : Event) : Decidable e.EndsInReturn := by
  unfold EndsInReturn
  infer_instance

/-- What comes back of an event that is written and read again: a carriage return at its end is
lost, and an event of which nothing else is left is lost with it. -/
def reread (e : Event) : Option Event :=
  let kept := dropReturn e.description.toList
  if kept.isEmpty then none else some { e with description := String.ofList kept }

/-- An event that does not end in a carriage return comes back as it was, and no other. -/
theorem reread_eq_self_iff {e : Event} (h : e.Storable) :
    e.reread = some e ↔ ¬ e.EndsInReturn := by
  unfold EndsInReturn
  rw [← ne_eq, ← dropReturn_eq_self_iff, reread]
  constructor
  · intro hreread
    split at hreread
    · cases hreread
    · have hdescription := congrArg Event.description (Option.some.inj hreread)
      simpa using congrArg String.toList hdescription
  · intro hkept
    have hempty : e.description.toList.isEmpty = false := by simpa using h.ne_nil
    simp only [hkept, hempty, String.ofList_toList]
    rfl

theorem clip_of_length_le {description : String}
    (h : description.toList.length ≤ maxDescription) : clip description = description := by
  rw [clip, List.take_of_length_le h, String.ofList_toList]

/-- Clean descriptions: those of events that come back as they are. -/
theorem storable_and_not_endsInReturn_iff {e : Event} :
    (e.Storable ∧ ¬ e.EndsInReturn) ↔
      e.description ≠ "" ∧ e.description.length ≤ maxDescription ∧
        '\n' ∉ e.description.toList ∧ e.description.toList.getLast? ≠ some '\r' := by
  have hempty : e.description.toList ≠ [] ↔ e.description ≠ "" := by simp
  have hlength : e.description.toList.length = e.description.length := String.length_toList
  constructor
  · rintro ⟨h, hreturn⟩
    exact ⟨hempty.1 h.ne_nil, hlength ▸ h.length_le, h.newline_notMem, hreturn⟩
  · rintro ⟨hne, hle, hnewline, hreturn⟩
    exact ⟨⟨hempty.2 hne, hnewline, hlength.symm ▸ hle⟩, hreturn⟩

theorem newline_notMem_chars {e : Event} (h : e.Storable) : '\n' ∉ e.chars := by
  have hpadded : ∀ w z, '\n' ∉ zeroPadded w z := by
    intro w z hmem
    obtain ⟨ds, -, hds, -, hpadded⟩ := zeroPadded_spec w z
    rw [hpadded] at hmem
    split at hmem
    · rcases List.mem_cons.1 hmem with heq | hmem
      · exact absurd heq (by decide)
      · exact absurd (hds _ hmem) (by decide)
    · exact absurd (hds _ hmem) (by decide)
  simp [chars, DateParts.chars, DateParts.ofDate, hpadded, h.newline_notMem]

/-- **The line of an event**, read from a file, gives back what there is left of the event. -/
theorem ofLine?_dropReturn_chars {e : Event} (h : e.Storable) :
    ofLine? (dropReturn e.chars) = e.reread := by
  have hline : dropReturn e.chars
      = (DateParts.ofDate e.date).chars ++ '|' :: dropReturn e.description.toList := by
    have hbar : e.chars = ((DateParts.ofDate e.date).chars ++ ['|']) ++ e.description.toList := by
      simp [chars]
    rw [hbar, dropReturn_append h.ne_nil, List.append_assoc, List.singleton_append]
  have hlength : (String.ofList (dropReturn e.description.toList)).toList.length
      ≤ maxDescription := by
    rw [String.toList_ofList]
    exact Nat.le_trans (length_dropReturn_le _) h.length_le
  rw [hline, ofLine?_chars, reread, clipped, clip_of_length_le hlength]

end Event

/-! ## Books that are written -/

namespace EventBook

def Storable (b : EventBook) : Prop := ∀ e ∈ b.events, e.Storable

theorem lines_toText {b : EventBook} (h : b.Storable) :
    lines b.toText.toList = b.events.map fun e => dropReturn e.chars := by
  obtain ⟨events⟩ := b
  rw [toText, String.toList_ofList]
  induction events with
  | nil => rfl
  | cons e events ih =>
      have he := Event.newline_notMem_chars (h e (by simp))
      rw [List.flatMap_cons, List.append_assoc, List.singleton_append, lines_append_newline _ _ he,
        ih fun e' he' => h e' (List.mem_cons_of_mem _ he'), List.map_cons]

/-- **A book that is written and read again.** -/
theorem ofText_toText {b : EventBook} (h : b.Storable) :
    ofText b.toText = ⟨b.events.filterMap Event.reread⟩ := by
  rw [ofText, lines_toText h, List.filterMap_map]
  congr 1
  exact List.filterMap_congr fun e he => Event.ofLine?_dropReturn_chars (h e he)

theorem storable_ofText (text : String) : (ofText text).Storable := by
  intro e he
  obtain ⟨line, hline, he⟩ := List.mem_filterMap.1 he
  exact Event.storable_of_ofLine? (newline_notMem_of_mem_lines hline) he

theorem filterMap_eq_self_iff {α : Type} {f : α → Option α} {xs : List α} :
    xs.filterMap f = xs ↔ ∀ x ∈ xs, f x = some x := by
  induction xs with
  | nil => simp
  | cons x xs ih =>
      rw [List.filterMap_cons]
      cases hx : f x with
      | none =>
          constructor
          · intro h
            have hshort := List.length_filterMap_le f xs
            simp only at h
            rw [h, List.length_cons] at hshort
            omega
          · intro h
            have := h x (by simp)
            rw [hx] at this
            cases this
      | some y =>
          simp only [List.cons.injEq, List.mem_cons, forall_eq_or_imp, hx, Option.some.injEq, ih]

/-- It is the same book exactly if no description ends in a carriage return. -/
theorem ofText_toText_eq_iff {b : EventBook} (h : b.Storable) :
    ofText b.toText = b ↔ ∀ e ∈ b.events, ¬ e.EndsInReturn := by
  have hbook : ofText b.toText = b ↔ b.events.filterMap Event.reread = b.events := by
    rw [ofText_toText h]
    cases b
    simp
  rw [hbook, filterMap_eq_self_iff]
  constructor
  · exact fun hall e he => (Event.reread_eq_self_iff (h e he)).1 (hall e he)
  · exact fun hall e he => (Event.reread_eq_self_iff (h e he)).2 (hall e he)

/-- **A book comes back from its own text exactly if all its descriptions are clean**: not empty,
not too long, without a line feed, and without a carriage return at the end. -/
theorem ofText_toText_eq_self_iff (b : EventBook) :
    ofText b.toText = b ↔ ∀ e ∈ b.events,
      e.description ≠ "" ∧ e.description.length ≤ 127 ∧ '\n' ∉ e.description.toList ∧
        e.description.toList.getLast? ≠ some '\r' := by
  constructor
  · intro h e he
    -- all that is read can be stored, so no line of the text can stand in for another event
    have hstorable : b.Storable := h ▸ storable_ofText b.toText
    exact Event.storable_and_not_endsInReturn_iff.1
      ⟨hstorable e he, (ofText_toText_eq_iff hstorable).1 h e he⟩
  · intro h
    have hclean : ∀ e ∈ b.events, e.Storable ∧ ¬ e.EndsInReturn :=
      fun e he => Event.storable_and_not_endsInReturn_iff.2 (h e he)
    exact (ofText_toText_eq_iff fun e he => (hclean e he).1).2 fun e he => (hclean e he).2

example : EventBook.ofText (EventBook.toText
    ⟨[⟨⟨-3, 2, 1, by decide⟩, "| a\rb "⟩, ⟨⟨12024, 2, 29, by decide⟩, " 2024-01-01|x"⟩]⟩)
      = ⟨[⟨⟨-3, 2, 1, by decide⟩, "| a\rb "⟩, ⟨⟨12024, 2, 29, by decide⟩, " 2024-01-01|x"⟩]⟩ := by
  decide +kernel

end EventBook

end DeskShell.Calendar
