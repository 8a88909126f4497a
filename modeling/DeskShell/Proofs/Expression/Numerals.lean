import DeskShell.Proofs.Expression.Boundaries
import DeskShell.Proofs.Text.Blank

/-!
# Numerals

A numeral has digits before or behind its point, and an exponent has digits (`Numeral.Proper`). A
text may start with many numerals, each the start of the next: `1`, `1.`, `1.5`, `1.5e1`. What is
read there is the longest of them (`Numeral.isLongest_iff`).
-/

set_option autoImplicit false

namespace DeskShell.Expression

open Text

/-! ## Spelling -/

/-- How an exponent is spelled: an `e` in either case, perhaps a sign, and digits. -/
structure Exponent.Proper (e : Exponent) : Prop where
  marker : e.marker = 'e' ∨ e.marker = 'E'
  sign : ∀ c ∈ e.sign, c = '+' ∨ c = '-'
  ne_nil : e.digits ≠ []
  isDigit : ∀ c ∈ e.digits, c.isDigit = true

/-- How a numeral is spelled: digits, perhaps with a point among them or at either end, and perhaps
an exponent. -/
structure Numeral.Proper (n : Numeral) : Prop where
  whole : ∀ c ∈ n.whole, c.isDigit = true
  fraction : ∀ ds ∈ n.fraction, ∀ c ∈ ds, c.isDigit = true
  exponent : ∀ e ∈ n.exponent, e.Proper
  hasDigits : n.hasDigits = true

/-- A numeral that a text starts with, and no longer one. -/
structure Numeral.IsLongest (n : Numeral) (cs : List Char) : Prop where
  proper : n.Proper
  starts : n.text <+: cs
  longest : ∀ n' : Numeral, n'.Proper → n'.text <+: cs → n'.text.length ≤ n.text.length

/-! ## What is read is a numeral -/

theorem Exponent.sign?_eq_some {cs rest : List Char} {s : Char} (h : sign? cs = (some s, rest)) :
    s = '+' ∨ s = '-' := by
  cases cs with
  | nil => cases h
  | cons c cs =>
      simp only [sign?] at h
      split at h
      · next hsign =>
          cases h
          exact hsign
      · cases h

theorem Exponent.proper_read {cs rest : List Char} {e : Exponent} (h : read cs = (some e, rest)) :
    e.Proper := by
  cases cs with
  | nil => cases h
  | cons marker cs =>
      simp only [read] at h
      split at h
      · next htaken =>
          cases h
          refine ⟨htaken.1, fun s hs => ?_, htaken.2, fun c hc => ?_⟩
          · exact sign?_eq_some (Prod.ext (Option.mem_def.1 hs) rfl)
          · exact List.all_eq_true.1 List.all_takeWhile c hc
      · cases h

theorem Numeral.proper_read {cs : List Char} (h : (read cs).1.hasDigits = true) :
    (read cs).1.Proper := by
  refine ⟨fun c hc => ?_, fun ds hds c hc => ?_, fun e he => ?_, h⟩
  · exact List.all_eq_true.1 List.all_takeWhile c hc
  · -- a fraction is read behind a point, by digits
    have hfraction : (readFraction (cs.dropWhile Char.isDigit)).1 = some ds := hds
    unfold readFraction at hfraction
    split at hfraction
    · obtain rfl := Option.some.inj hfraction
      exact List.all_eq_true.1 List.all_takeWhile c hc
    · cases hfraction
  · exact Exponent.proper_read (Prod.ext (Option.mem_def.1 he) rfl)

/-! ## A numeral and what follows it -/

theorem Exponent.Proper.sign?_digits {e : Exponent} (h : e.Proper) (rest : List Char) :
    sign? (e.sign.toList ++ (e.digits ++ rest)) = (e.sign, e.digits ++ rest) := by
  cases hsign : e.sign with
  | some s =>
      rw [Option.toList_some, List.singleton_append, sign?, if_pos (h.sign s hsign)]
  | none =>
      obtain ⟨d, ds, hdigits⟩ := List.exists_cons_of_ne_nil h.ne_nil
      have hd : d.isDigit = true := h.isDigit d (by simp [hdigits])
      have hnone : ¬ (d = '+' ∨ d = '-') := by
        rintro (rfl | rfl) <;> exact absurd hd (by decide)
      rw [Option.toList_none, List.nil_append, hdigits, List.cons_append, sign?, if_neg hnone]

theorem Exponent.Proper.read_text {e : Exponent} (h : e.Proper) (rest : List Char) :
    Exponent.read (e.text ++ rest)
      = (some { e with digits := e.digits ++ rest.takeWhile Char.isDigit },
        rest.dropWhile Char.isDigit) := by
  have htake : (e.digits ++ rest).takeWhile Char.isDigit
      = e.digits ++ rest.takeWhile Char.isDigit := List.takeWhile_append_of_pos h.isDigit
  have hne : (e.digits ++ rest).takeWhile Char.isDigit ≠ [] := by
    rw [htake]
    simp [h.ne_nil]
  rw [Exponent.text, List.cons_append, List.append_assoc, Exponent.read, h.sign?_digits]
  simp only
  rw [if_pos ⟨h.marker, hne⟩, htake, List.dropWhile_append_of_pos h.isDigit]

/-- What is read where a numeral stands: the numeral, continued by what follows it. -/
def Numeral.continued (n : Numeral) (rest : List Char) : Numeral × List Char :=
  match n.exponent, n.fraction with
  | some e, fraction =>
      (⟨n.whole, fraction, some { e with digits := e.digits ++ rest.takeWhile Char.isDigit }⟩,
        rest.dropWhile Char.isDigit)
  | none, some ds =>
      let (exponent, behind) := Exponent.read (rest.dropWhile Char.isDigit)
      (⟨n.whole, some (ds ++ rest.takeWhile Char.isDigit), exponent⟩, behind)
  | none, none =>
      let (more, behind) := read rest
      ({ more with whole := n.whole ++ more.whole }, behind)

theorem Exponent.Proper.digits_text {e : Exponent} (h : e.Proper) {ds : List Char}
    (hds : ∀ c ∈ ds, c.isDigit = true) (rest : List Char) :
    (ds ++ (e.text ++ rest)).takeWhile Char.isDigit = ds ∧
      (ds ++ (e.text ++ rest)).dropWhile Char.isDigit = e.text ++ rest := by
  have hmarker : e.marker.isDigit = false := by
    rcases h.marker with heq | heq <;> rw [heq] <;> rfl
  exact ⟨takeWhile_run hds hmarker _, dropWhile_run hds hmarker _⟩

theorem Exponent.Proper.readFraction_text {e : Exponent} (h : e.Proper) (rest : List Char) :
    Numeral.readFraction (e.text ++ rest) = (none, e.text ++ rest) := by
  have hmarker : e.marker ≠ '.' := by
    rcases h.marker with heq | heq <;> rw [heq] <;> decide
  exact Numeral.readFraction_of_ne hmarker _

theorem Numeral.Proper.read_text {n : Numeral} (h : n.Proper) (rest : List Char) :
    Numeral.read (n.text ++ rest) = n.continued rest := by
  obtain ⟨whole, fraction, exponent⟩ := n
  obtain ⟨hwhole, hfraction, hexponent, -⟩ := h
  dsimp only at hwhole hfraction hexponent
  have hpoint : '.'.isDigit = false := rfl
  -- a point and the letter of an exponent are no digits, so each part ends where the next starts
  cases exponent with
  | some e =>
      have he := hexponent e rfl
      cases fraction with
      | some ds =>
          have hcs : Numeral.text ⟨whole, some ds, some e⟩ ++ rest
              = whole ++ '.' :: (ds ++ (e.text ++ rest)) := by
            simp [Numeral.text]
          obtain ⟨htake, hdrop⟩ := he.digits_text (hfraction ds rfl) rest
          rw [hcs, Numeral.read, takeWhile_run hwhole hpoint, dropWhile_run hwhole hpoint]
          simp only [readFraction, htake, hdrop, he.read_text, continued]
      | none =>
          have hcs : Numeral.text ⟨whole, none, some e⟩ ++ rest = whole ++ (e.text ++ rest) := by
            simp [Numeral.text]
          obtain ⟨htake, hdrop⟩ := he.digits_text hwhole rest
          rw [hcs, Numeral.read, htake, hdrop]
          simp only [he.readFraction_text, he.read_text, continued]
  | none =>
      cases fraction with
      | some ds =>
          have hds := hfraction ds rfl
          have hcs : Numeral.text ⟨whole, some ds, none⟩ ++ rest
              = whole ++ '.' :: (ds ++ rest) := by
            simp [Numeral.text]
          rw [hcs, Numeral.read, takeWhile_run hwhole hpoint, dropWhile_run hwhole hpoint]
          simp only [readFraction, List.takeWhile_append_of_pos hds,
            List.dropWhile_append_of_pos hds, continued]
      | none =>
          have hcs : Numeral.text ⟨whole, none, none⟩ ++ rest = whole ++ rest := by
            simp [Numeral.text]
          rw [hcs, Numeral.read, List.takeWhile_append_of_pos hwhole,
            List.dropWhile_append_of_pos hwhole]
          rfl

/-- A numeral that is read where a numeral stands leaves no more of the text. -/
theorem Numeral.continued_suffix (n : Numeral) (rest : List Char) :
    (n.continued rest).2 <:+ rest := by
  unfold continued
  split
  · exact List.dropWhile_suffix _
  · exact (Exponent.read_suffix _).trans (List.dropWhile_suffix _)
  · exact ⟨_, Numeral.read_text rest⟩

theorem Numeral.hasDigits_continued {n : Numeral} (h : n.Proper) (rest : List Char) :
    (n.continued rest).1.hasDigits = true := by
  obtain ⟨whole, fraction, exponent⟩ := n
  have hdigits := h.hasDigits
  cases exponent with
  | some e => exact hdigits
  | none =>
      cases fraction with
      | some ds =>
          have hnone : whole ≠ [] ∨ ds ≠ [] := by
            simpa [hasDigits, or_iff_not_imp_left] using hdigits
          rcases hnone with hwhole | hds
          · simp [continued, hasDigits, hwhole]
          · simp [continued, hasDigits, hds]
      | none =>
          have hwhole : whole ≠ [] := by simpa [hasDigits] using hdigits
          simp [continued, hasDigits, hwhole]

theorem Numeral.continued_nil (n : Numeral) : n.continued [] = (n, []) := by
  obtain ⟨whole, fraction, exponent⟩ := n
  cases exponent with
  | some e => simp [continued]
  | none => cases fraction <;> simp [continued, read, readFraction, Exponent.read]

theorem Numeral.Proper.eq_of_text {n n' : Numeral} (h : n.Proper) (h' : n'.Proper)
    (htext : n.text = n'.text) : n = n' := by
  have hread := h.read_text []
  rw [htext, h'.read_text [], continued_nil, continued_nil] at hread
  exact (congrArg Prod.fst hread).symm

/-! ## The longest numeral -/

theorem Numeral.Proper.length_le_read {n : Numeral} (h : n.Proper) {cs : List Char}
    (hstarts : n.text <+: cs) : n.text.length ≤ (read cs).1.text.length := by
  obtain ⟨rest, rfl⟩ := hstarts
  have hless := (n.continued_suffix rest).length_le
  have hall := congrArg List.length (Numeral.read_text (n.text ++ rest))
  rw [h.read_text rest] at hall ⊢
  rw [List.length_append, List.length_append] at hall
  omega

/-- **What is read is the longest numeral** that the text starts with. -/
theorem Numeral.isLongest_iff {n : Numeral} {cs : List Char} :
    n.IsLongest cs ↔ (read cs).1 = n ∧ n.hasDigits = true := by
  constructor
  · intro h
    obtain ⟨rest, hrest⟩ := h.starts
    have hdigits : (read cs).1.hasDigits = true := by
      rw [← hrest, h.proper.read_text]
      exact hasDigits_continued h.proper rest
    have hproper := proper_read hdigits
    have hstarts : (read cs).1.text <+: cs := ⟨_, Numeral.read_text cs⟩
    -- neither is longer, and both start the text
    have hlength : (read cs).1.text.length = n.text.length :=
      Nat.le_antisymm (h.longest _ hproper hstarts) (h.proper.length_le_read h.starts)
    have htext : (read cs).1.text = n.text :=
      (List.prefix_of_prefix_length_le hstarts h.starts (Nat.le_of_eq hlength)).eq_of_length hlength
    exact ⟨hproper.eq_of_text h.proper htext, h.proper.hasDigits⟩
  · rintro ⟨rfl, hdigits⟩
    exact ⟨proper_read hdigits, ⟨_, Numeral.read_text cs⟩, fun n' hn' hstarts =>
      hn'.length_le_read hstarts⟩

end DeskShell.Expression
