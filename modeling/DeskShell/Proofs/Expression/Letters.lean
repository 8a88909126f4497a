import DeskShell.Proofs.Expression.Lexing

/-!
# Capitals and small letters

A text and the same text in small letters have the same lexemes, each in small letters, at the same
positions (`Lexeme.scan_lowered`). The case of letters is nowhere part of a meaning, and an unknown
word is named in small letters, so a text is read alike however its letters are written, faults
included (`tokenize_of_sameLetters`).
-/

set_option autoImplicit false

namespace DeskShell.Expression

open Text

/-! ## Capitals and small letters -/

/-- A capital and its small letter, and any other character and itself. -/
theorem toLower_induction {P : Char → Char → Prop} (hsame : ∀ c, P c c)
    (hcapital : ∀ n < 26, P (Char.ofNat (65 + n)) (Char.ofNat (97 + n))) (c : Char) :
    P c c.toLower := by
  by_cases hc : c.isUpper = true
  · have hrange : 65 ≤ c.toNat ∧ c.toNat ≤ 90 := by
      simpa [Char.isUpper, UInt32.le_iff_toNat_le] using hc
    have hpair := hcapital (c.toNat - 65) (by omega)
    have hup : 65 + (c.toNat - 65) = c.toNat := by omega
    have hdown : 97 + (c.toNat - 65) = c.toNat + 32 := by omega
    rw [hup, hdown, Char.ofNat_toNat] at hpair
    rwa [Char.toLower_eq_of_isUpper hc]
  · rw [Char.toLower_eq_of_not_isUpper hc]
    exact hsame c

theorem isDigit_toLower (c : Char) : c.toLower.isDigit = c.isDigit :=
  toLower_induction (P := fun c d => d.isDigit = c.isDigit) (fun _ => rfl) (by decide) c

theorem isAsciiBlank_toLower (c : Char) : isAsciiBlank c.toLower = isAsciiBlank c :=
  toLower_induction (P := fun c d => isAsciiBlank d = isAsciiBlank c) (fun _ => rfl) (by decide) c

theorem isLetter_toLower (c : Char) : isLetter c.toLower = isLetter c :=
  Char.isAlpha_toLower_eq_isAlpha c

theorem utf8Size_toLower (c : Char) : c.toLower.utf8Size = c.utf8Size :=
  toLower_induction (P := fun c d => d.utf8Size = c.utf8Size) (fun _ => rfl) (by decide) c

theorem toLower_of_not_isLetter {c : Char} (h : isLetter c = false) : c.toLower = c := by
  refine Char.toLower_eq_of_not_isUpper fun hupper => ?_
  simp [isLetter, Char.isAlpha, hupper] at h

theorem toLower_eq_iff {m : Char} (h : isLetter m = false) (c : Char) : c.toLower = m ↔ c = m := by
  constructor
  · rintro rfl
    rw [isLetter_toLower] at h
    exact (toLower_of_not_isLetter h).symm
  · rintro rfl
    exact toLower_of_not_isLetter h

theorem toLower_eq_marker_iff (c : Char) :
    (c.toLower = 'e' ∨ c.toLower = 'E') ↔ (c = 'e' ∨ c = 'E') :=
  toLower_induction (P := fun c d => (d = 'e' ∨ d = 'E') ↔ (c = 'e' ∨ c = 'E')) (fun _ => .rfl)
    (by decide) c

section Runs

variable {p : Char → Bool}

theorem takeWhile_map_toLower (h : ∀ c : Char, p c.toLower = p c) (cs : List Char) :
    (cs.map Char.toLower).takeWhile p = (cs.takeWhile p).map Char.toLower := by
  rw [List.takeWhile_map]
  congr 2
  exact funext h

theorem dropWhile_map_toLower (h : ∀ c : Char, p c.toLower = p c) (cs : List Char) :
    (cs.map Char.toLower).dropWhile p = (cs.dropWhile p).map Char.toLower := by
  rw [List.dropWhile_map]
  congr 2
  exact funext h

end Runs

theorem takeWhile_isDigit_map_toLower (cs : List Char) :
    (cs.map Char.toLower).takeWhile Char.isDigit = cs.takeWhile Char.isDigit := by
  rw [takeWhile_map_toLower isDigit_toLower]
  refine (List.map_congr_left fun c hc => ?_).trans (List.map_id _)
  have hdigit : c.isDigit = true := List.all_eq_true.1 List.all_takeWhile c hc
  refine toLower_of_not_isLetter ?_
  by_contra hletter
  rw [isDigit_of_isLetter (by simpa using hletter)] at hdigit
  cases hdigit

/-! ## Lexemes in small letters -/

def Exponent.lowered (e : Exponent) : Exponent := { e with marker := e.marker.toLower }

def Numeral.lowered (n : Numeral) : Numeral :=
  { n with exponent := n.exponent.map Exponent.lowered }

def Lexeme.lowered : Lexeme → Lexeme
  | numeral n => numeral n.lowered
  | word letters => word (letters.map Char.toLower)
  | mark c => mark c

theorem Exponent.sign?_lowered (cs : List Char) :
    sign? (cs.map Char.toLower) = ((sign? cs).1, (sign? cs).2.map Char.toLower) := by
  cases cs with
  | nil => rfl
  | cons c cs =>
      simp only [List.map_cons, sign?, toLower_eq_iff (m := '+') (by decide),
        toLower_eq_iff (m := '-') (by decide)]
      split
      · next hsign =>
          have hc : isLetter c = false := by rcases hsign with rfl | rfl <;> decide
          rw [toLower_of_not_isLetter hc]
      · rfl

theorem Exponent.read_lowered (cs : List Char) :
    read (cs.map Char.toLower) = ((read cs).1.map lowered, (read cs).2.map Char.toLower) := by
  cases cs with
  | nil => rfl
  | cons marker cs =>
      simp only [List.map_cons, read, sign?_lowered, takeWhile_isDigit_map_toLower,
        dropWhile_map_toLower isDigit_toLower, toLower_eq_marker_iff]
      split <;> rfl

theorem Numeral.readFraction_lowered (cs : List Char) :
    readFraction (cs.map Char.toLower)
      = ((readFraction cs).1, (readFraction cs).2.map Char.toLower) := by
  cases cs with
  | nil => rfl
  | cons c cs =>
      by_cases hc : c = '.'
      · subst hc
        have hpoint : Char.toLower '.' = '.' := by decide
        simp only [List.map_cons, hpoint, readFraction, takeWhile_isDigit_map_toLower,
          dropWhile_map_toLower isDigit_toLower]
      · have hpoint : c.toLower ≠ '.' := fun h => hc ((toLower_eq_iff (by decide) c).1 h)
        rw [List.map_cons, readFraction_of_ne hpoint, readFraction_of_ne hc]
        rfl

theorem Numeral.read_lowered (cs : List Char) :
    read (cs.map Char.toLower) = ((read cs).1.lowered, (read cs).2.map Char.toLower) := by
  simp only [read, takeWhile_isDigit_map_toLower, dropWhile_map_toLower isDigit_toLower,
    readFraction_lowered, Exponent.read_lowered]
  rfl

theorem Lexeme.next_lowered (c : Char) (cs : List Char) :
    next c.toLower (cs.map Char.toLower)
      = ((next c cs).1.lowered, (next c cs).2.map Char.toLower) := by
  have hpoint : (c.toLower == '.') = (c == '.') := by
    rw [Bool.eq_iff_iff, beq_iff_eq, beq_iff_eq]
    exact toLower_eq_iff (by decide) c
  simp only [next, isDigit_toLower, hpoint, isLetter_toLower, ← List.map_cons,
    Numeral.read_lowered, takeWhile_map_toLower isLetter_toLower,
    dropWhile_map_toLower isLetter_toLower]
  split
  · rfl
  · split
    · rfl
    · next hletter => rw [toLower_of_not_isLetter (by simpa using hletter)]; rfl

theorem byteCount_map_toLower (cs : List Char) :
    byteCount (cs.map Char.toLower) = byteCount cs := by
  induction cs with
  | nil => rfl
  | cons c cs ih => rw [List.map_cons, byteCount, byteCount, utf8Size_toLower, ih]

theorem Lexeme.size_lowered (l : Lexeme) : l.lowered.size = l.size := by
  cases l with
  | numeral n =>
      obtain ⟨whole, fraction, exponent⟩ := n
      cases exponent with
      | none => rfl
      | some e =>
          simp [lowered, size, text, Numeral.lowered, Numeral.text, Exponent.lowered,
            Exponent.text, byteCount, utf8Size_toLower]
  | word letters => exact byteCount_map_toLower letters
  | mark c => rfl

theorem Lexeme.scan_lowered (position : Nat) (cs : List Char) :
    scan position (cs.map Char.toLower) = (scan position cs).map fun x => (x.1, x.2.lowered) := by
  fun_induction scan position cs with
  | case1 => simp [scan]
  | case2 position c rest hblank ih =>
      rw [List.map_cons, scan, if_pos (by rwa [isAsciiBlank_toLower]), ih]
  | case3 position c rest hblank ih =>
      rw [List.map_cons, scan, if_neg (by rwa [isAsciiBlank_toLower])]
      rw [next_lowered, size_lowered, ih, List.map_cons]

theorem Lexeme.meaning_lowered (l : Lexeme) (afterOperand : Bool) (position : Nat) :
    l.lowered.meaning afterOperand position = l.meaning afterOperand position := by
  cases l with
  | numeral n =>
      have hvalue : n.lowered.value = n.value := by
        obtain ⟨whole, fraction, exponent⟩ := n
        cases exponent <;> rfl
      simp only [lowered, meaning, hvalue]
      rfl
  | word letters =>
      have hword : lower (String.ofList (letters.map Char.toLower))
          = lower (String.ofList letters) := by
        simp [lower, Function.comp_def]
      simp only [lowered, meaning, hword]
  | mark c => rfl

theorem tokensOf_lowered (afterOperand : Bool) (room : Nat) (lexemes : List (Nat × Lexeme)) :
    tokensOf afterOperand room (lexemes.map fun x => (x.1, x.2.lowered))
      = tokensOf afterOperand room lexemes := by
  fun_induction tokensOf afterOperand room lexemes with
  | case1 => rfl
  | case2 afterOperand room position lexeme rest fault hmeaning =>
      simp [tokensOf, Lexeme.meaning_lowered, hmeaning]
  | case3 afterOperand room position lexeme rest hmeaning ih =>
      simpa [tokensOf, Lexeme.meaning_lowered, hmeaning] using ih
  | case4 afterOperand position lexeme rest token hmeaning =>
      simp [tokensOf, Lexeme.meaning_lowered, hmeaning]
  | case5 afterOperand position lexeme rest token hmeaning room ih =>
      simp [tokensOf, Lexeme.meaning_lowered, hmeaning, ih]

/-- A text is read as it is in small letters, faults included. -/
theorem tokenize_lower (source : String) : tokenize (lower source) = tokenize source := by
  rw [tokenize, tokenize, lower, String.toList_ofList, Lexeme.scan_lowered, tokensOf_lowered]

theorem tokenize_of_sameLetters {source other : String} (h : sameLetters source other = true) :
    tokenize source = tokenize other := by
  rw [← tokenize_lower source, sameLetters_iff.1 h, tokenize_lower]

end DeskShell.Expression
