import DeskShell.Expression.Reading
import Mathlib

/-!
# Reading a text piece by piece

A text is read in two steps: it is cut into lexemes, and the lexemes are given their meaning. Both
steps go through a text from left to right, and so both can be followed across a place where the
text falls apart. Such a place is a character that no lexeme runs over (`EndsLexeme`), and
the only thing that passes it is whether an operand has just ended (`Token.lastEndsOperand`).

Positions and the bound on the number of tokens are left out of `cut` and `read?`; how they come
back in is said once, by `tokenize_eq_ok_iff` and `tokenize_of_read?`.
-/

set_option autoImplicit false

namespace DeskShell.Expression

open Text

/-! ## Cutting -/

/-- Whether a character ends every lexeme in front of it: it continues neither a numeral nor a
word. -/
def EndsLexeme (b : Char) : Prop :=
  b.isDigit = false ∧ isLetter b = false ∧ b ≠ '.' ∧ b ≠ '+' ∧ b ≠ '-'

instance (b : Char) : Decidable (EndsLexeme b) := by
  unfold EndsLexeme
  infer_instance

theorem isDigit_of_isLetter {c : Char} (h : isLetter c = true) : c.isDigit = false := by
  simp only [isLetter, Char.isAlpha, Char.isUpper, Char.isLower, Bool.or_eq_true,
    Bool.and_eq_true, decide_eq_true_eq] at h
  simp only [Char.isDigit, Bool.and_eq_false_iff, decide_eq_false_iff_not]
  simp only [UInt32.le_iff_toNat_le, ge_iff_le] at h ⊢
  simp at h ⊢
  omega

theorem ne_point_of_isLetter {c : Char} (h : isLetter c = true) : c ≠ '.' := by
  rintro rfl
  exact absurd h (by decide)

theorem isAsciiBlank_of_isLetter {c : Char} (h : isLetter c = true) : isAsciiBlank c = false := by
  cases hblank : isAsciiBlank c with
  | false => rfl
  | true =>
      simp only [isAsciiBlank, Bool.or_eq_true, beq_iff_eq] at hblank
      rcases hblank with (((rfl | rfl) | rfl) | rfl) | rfl <;> exact absurd h (by decide)

section Runs

variable {p : Char → Bool} {b : Char}

theorem takeWhile_append_cons (h : p b = false) (cs more : List Char) :
    (cs ++ b :: more).takeWhile p = cs.takeWhile p := by
  induction cs with
  | nil => simp [h]
  | cons c cs ih => simp only [List.cons_append, List.takeWhile_cons, ih]

theorem dropWhile_append_cons (h : p b = false) (cs more : List Char) :
    (cs ++ b :: more).dropWhile p = cs.dropWhile p ++ b :: more := by
  induction cs with
  | nil => simp [h]
  | cons c cs ih =>
      simp only [List.cons_append, List.dropWhile_cons, ih]
      split <;> rfl

end Runs

theorem Exponent.sign?_append {b : Char} (hb : EndsLexeme b) (cs more : List Char) :
    Exponent.sign? (cs ++ b :: more)
      = ((Exponent.sign? cs).1, (Exponent.sign? cs).2 ++ b :: more) := by
  cases cs with
  | nil => simp [Exponent.sign?, hb.2.2.2.1, hb.2.2.2.2]
  | cons c cs =>
      simp only [List.cons_append, Exponent.sign?]
      split <;> rfl

theorem Exponent.read_append {b : Char} (hb : EndsLexeme b) (cs more : List Char) :
    Exponent.read (cs ++ b :: more)
      = ((Exponent.read cs).1, (Exponent.read cs).2 ++ b :: more) := by
  cases cs with
  | nil =>
      have hmarker : ¬ (b = 'e' ∨ b = 'E') := by
        rintro (rfl | rfl)
        · exact absurd hb.2.1 (by decide)
        · exact absurd hb.2.1 (by decide)
      simp [Exponent.read, hmarker]
  | cons marker cs =>
      simp only [List.cons_append, Exponent.read, Exponent.sign?_append hb,
        takeWhile_append_cons hb.1, dropWhile_append_cons hb.1]
      split <;> rfl

theorem Numeral.readFraction_of_ne {c : Char} (h : c ≠ '.') (cs : List Char) :
    Numeral.readFraction (c :: cs) = (none, c :: cs) := by
  unfold Numeral.readFraction
  split
  · next rest heq => exact absurd (List.cons.inj heq).1 h
  · rfl

theorem Numeral.readFraction_append {b : Char} (hdigit : b.isDigit = false) (hpoint : b ≠ '.')
    (cs more : List Char) : Numeral.readFraction (cs ++ b :: more)
      = ((Numeral.readFraction cs).1, (Numeral.readFraction cs).2 ++ b :: more) := by
  cases cs with
  | nil => exact Numeral.readFraction_of_ne hpoint more
  | cons c cs =>
      by_cases hc : c = '.'
      · subst hc
        simp only [List.cons_append, Numeral.readFraction, takeWhile_append_cons hdigit,
          dropWhile_append_cons hdigit]
      · rw [List.cons_append, Numeral.readFraction_of_ne hc, Numeral.readFraction_of_ne hc]
        rfl

theorem Numeral.read_append {b : Char} (hb : EndsLexeme b) (cs more : List Char) :
    Numeral.read (cs ++ b :: more)
      = ((Numeral.read cs).1, (Numeral.read cs).2 ++ b :: more) := by
  simp only [Numeral.read, takeWhile_append_cons hb.1, dropWhile_append_cons hb.1,
    Numeral.readFraction_append hb.1 hb.2.2.1, Exponent.read_append hb]

/-- The first lexeme of a text stays what it is when the text goes on with a character that ends
it. -/
theorem Lexeme.next_append {b : Char} (hb : EndsLexeme b) (c : Char) (cs more : List Char) :
    Lexeme.next c (cs ++ b :: more)
      = ((Lexeme.next c cs).1, (Lexeme.next c cs).2 ++ b :: more) := by
  simp only [Lexeme.next, takeWhile_append_cons hb.2.1, dropWhile_append_cons hb.2.1,
    ← List.cons_append, Numeral.read_append hb]
  split
  · rfl
  · split <;> rfl

theorem isAsciiBlank_utf8Size {c : Char} (h : isAsciiBlank c = true) : c.utf8Size = 1 := by
  simp only [isAsciiBlank, Bool.or_eq_true, beq_iff_eq] at h
  rcases h with (((rfl | rfl) | rfl) | rfl) | rfl <;> rfl

theorem Lexeme.scan_blank {c : Char} (h : isAsciiBlank c = true) (position : Nat)
    (cs : List Char) : scan position (c :: cs) = scan (position + 1) cs := by
  rw [scan, if_pos h]

theorem Lexeme.scan_cons {c : Char} (h : isAsciiBlank c = false) (position : Nat)
    (cs : List Char) : scan position (c :: cs)
      = (position, (next c cs).1) :: scan (position + (next c cs).1.size) (next c cs).2 := by
  rw [scan, if_neg (by simp [h])]

/-- A text that starts later has the same lexemes, all as much later. -/
theorem Lexeme.scan_add (position later : Nat) (cs : List Char) :
    scan (position + later) cs = (scan position cs).map fun x => (x.1 + later, x.2) := by
  fun_induction scan position cs with
  | case1 => simp [scan]
  | case2 position c rest hblank ih => rw [scan_blank hblank, Nat.add_right_comm, ih]
  | case3 position c rest hblank ih =>
      have hblank' : isAsciiBlank c = false := by simpa using hblank
      rw [scan_cons hblank', Nat.add_right_comm, ih, List.map_cons]

/-- **A text falls apart** in front of a character that ends every lexeme. -/
theorem Lexeme.scan_append_cons {b : Char} (hb : EndsLexeme b) (position : Nat)
    (cs more : List Char) : scan position (cs ++ b :: more)
      = scan position cs ++ scan (position + byteCount cs) (b :: more) := by
  fun_induction scan position cs with
  | case1 => simp [byteCount]
  | case2 position c rest hblank ih =>
      rw [List.cons_append, scan_blank hblank, ih, byteCount, isAsciiBlank_utf8Size hblank,
        Nat.add_assoc]
  | case3 position c rest hblank ih =>
      have hblank' : isAsciiBlank c = false := by simpa using hblank
      have hbytes : byteCount (c :: rest) = (next c rest).1.size + byteCount (next c rest).2 := by
        conv => lhs; rw [← next_text c rest]
        exact byteCount_append ..
      rw [List.cons_append, scan_cons hblank', next_append hb, ih, hbytes, Nat.add_assoc,
        List.cons_append]

/-- The lexemes of a text without their positions. -/
def Lexeme.cut (cs : List Char) : List Lexeme := (Lexeme.scan 0 cs).map (·.2)

theorem Lexeme.scan_map_snd (position : Nat) (cs : List Char) :
    (Lexeme.scan position cs).map (·.2) = Lexeme.cut cs := by
  rw [cut, ← Nat.zero_add position, scan_add, List.map_map]
  rfl

@[simp]
theorem Lexeme.cut_nil : Lexeme.cut [] = [] := by
  simp [Lexeme.cut, Lexeme.scan]

theorem Lexeme.cut_blank {c : Char} (h : isAsciiBlank c = true) (cs : List Char) :
    Lexeme.cut (c :: cs) = Lexeme.cut cs := by
  rw [Lexeme.cut, Lexeme.scan, if_pos h, Lexeme.scan_map_snd]

theorem Lexeme.cut_cons {c : Char} (h : isAsciiBlank c = false) (cs : List Char) :
    Lexeme.cut (c :: cs) = (Lexeme.next c cs).1 :: Lexeme.cut (Lexeme.next c cs).2 := by
  rw [Lexeme.cut, Lexeme.scan, if_neg (by simp [h]), List.map_cons, Lexeme.scan_map_snd]

/-- A mark is a character that neither is blank nor can be part of a numeral or a word. -/
def IsMark (c : Char) : Prop :=
  isAsciiBlank c = false ∧ c.isDigit = false ∧ c ≠ '.' ∧ isLetter c = false

instance (c : Char) : Decidable (IsMark c) := by
  unfold IsMark
  infer_instance

theorem isMark_symbol (op : Operator) : IsMark op.symbol := by
  cases op <;> decide

theorem Lexeme.scan_mark {c : Char} (hc : IsMark c) (position : Nat) (cs : List Char) :
    scan position (c :: cs) = (position, .mark c) :: scan (position + c.utf8Size) cs := by
  obtain ⟨hblank, hdigit, hpoint, hletter⟩ := hc
  rw [scan_cons hblank]
  simp [next, hdigit, hpoint, hletter, size, text, byteCount]

theorem Lexeme.cut_mark {c : Char} (hc : IsMark c) (cs : List Char) :
    cut (c :: cs) = .mark c :: cut cs := by
  rw [cut, scan_mark hc, List.map_cons, scan_map_snd]

theorem Lexeme.cut_word {letters more : List Char} (hne : letters ≠ [])
    (hletters : ∀ c ∈ letters, isLetter c = true) (hmore : ∀ c ∈ more.head?, isLetter c = false) :
    Lexeme.cut (letters ++ more) = .word letters :: Lexeme.cut more := by
  have hend : more.takeWhile isLetter = [] ∧ more.dropWhile isLetter = more := by
    cases more with
    | nil => exact ⟨rfl, rfl⟩
    | cons b more => simp [hmore b rfl]
  cases letters with
  | nil => exact absurd rfl hne
  | cons c letters =>
      have hc : isLetter c = true := hletters c (by simp)
      have hrest : ∀ d ∈ letters, isLetter d = true := fun d hd => hletters d (by simp [hd])
      have hnext : Lexeme.next c (letters ++ more) = (.word (c :: letters), more) := by
        simp [Lexeme.next, hc, isDigit_of_isLetter hc, ne_point_of_isLetter hc,
          List.takeWhile_append_of_pos hrest, List.dropWhile_append_of_pos hrest, hend.1, hend.2]
      rw [List.cons_append, Lexeme.cut_cons (isAsciiBlank_of_isLetter hc), hnext]

theorem Lexeme.cut_append {b : Char} (hb : EndsLexeme b) (cs more : List Char) :
    Lexeme.cut (cs ++ b :: more) = Lexeme.cut cs ++ Lexeme.cut (b :: more) := by
  rw [cut, scan_append_cons hb, List.map_append, scan_map_snd, scan_map_snd]

/-! ## Meaning -/

/-- Whether an operand ends with the last of some tokens; where there are none, what was the case
before them holds on. -/
def Token.lastEndsOperand (before : Bool) (tokens : List Token) : Bool :=
  tokens.getLast?.elim before Token.endsOperand

def read? (afterOperand : Bool) : List Lexeme → Option (List Token)
  | [] => some []
  | lexeme :: rest =>
      match lexeme.meaning afterOperand 0 with
      | .error _ => none
      | .ok none => read? afterOperand rest
      | .ok (some token) => (read? token.endsOperand rest).map (token :: ·)

theorem read?_cons_of_meaning {l : Lexeme} {afterOperand : Bool} {token : Token}
    (h : l.meaning afterOperand 0 = .ok (some token)) (rest : List Lexeme) :
    read? afterOperand (l :: rest) = (read? token.endsOperand rest).map (token :: ·) := by
  rw [read?, h]

theorem Lexeme.meaning_symbol (op : Operator) (p : Nat) :
    (Lexeme.mark op.symbol).meaning true p = .ok (some (.operator op)) := by
  cases op <;> rfl

theorem Lexeme.meaning_minus : (Lexeme.mark '-').meaning false 0 = .ok (some .neg) := rfl

theorem Lexeme.meaning_name {letters : List Char} {f : Function}
    (h : lower (String.ofList letters) = f.name) (b : Bool) (p : Nat) :
    (Lexeme.word letters).meaning b p = .ok (some (.function f)) := by
  simp only [meaning, h]
  cases f <;> rfl

theorem read?_mark {c : Char} (hc : IsMark c) {afterOperand : Bool} {token : Token}
    (h : (Lexeme.mark c).meaning afterOperand 0 = .ok (some token)) (cs : List Char) :
    read? afterOperand (Lexeme.cut (c :: cs))
      = (read? token.endsOperand (Lexeme.cut cs)).map (token :: ·) := by
  rw [Lexeme.cut_mark hc, read?_cons_of_meaning h]

theorem read?_opening (afterOperand : Bool) (cs : List Char) :
    read? afterOperand (Lexeme.cut ('(' :: cs))
      = (read? false (Lexeme.cut cs)).map (Token.opening :: ·) :=
  read?_mark (by decide) rfl cs

theorem read?_closing (afterOperand : Bool) (cs : List Char) :
    read? afterOperand (Lexeme.cut (')' :: cs))
      = (read? true (Lexeme.cut cs)).map (Token.closing :: ·) :=
  read?_mark (by decide) rfl cs

theorem read?_minus (cs : List Char) : read? false (Lexeme.cut ('-' :: cs))
    = (read? false (Lexeme.cut cs)).map (Token.neg :: ·) :=
  read?_mark (by decide) Lexeme.meaning_minus cs

theorem read?_symbol (op : Operator) (cs : List Char) :
    read? true (Lexeme.cut (op.symbol :: cs))
      = (read? false (Lexeme.cut cs)).map (Token.operator op :: ·) :=
  read?_mark (isMark_symbol op) (Lexeme.meaning_symbol op 0) cs

/-- The name of a function is read as the function where no letter stands behind it. -/
theorem read?_function (f : Function) (afterOperand : Bool) {cs : List Char}
    (h : ∀ c ∈ cs.head?, isLetter c = false) :
    read? afterOperand (Lexeme.cut (f.name.toList ++ cs))
      = (read? false (Lexeme.cut cs)).map (Token.function f :: ·) := by
  have hletters : f.name.toList ≠ [] ∧ ∀ c ∈ f.name.toList, isLetter c = true := by
    cases f <;> simp [Function.name, isLetter]
  have hname : lower (String.ofList f.name.toList) = f.name := by
    cases f <;> decide
  rw [Lexeme.cut_word hletters.1 hletters.2 h,
    read?_cons_of_meaning (Lexeme.meaning_name hname _ _)]
  rfl

/-- What a lexeme that means something is, and what it stands for. -/
theorem Lexeme.cases_of_meaning {l : Lexeme} {afterOperand : Bool} {position : Nat}
    {token : Option Token} (h : l.meaning afterOperand position = .ok token) :
    (∃ n, l = .numeral n ∧ token = some (.number n.value)) ∨
      (∃ letters t, l = .word letters ∧ token = some t ∧
        wordToken? (lower (String.ofList letters)) = some t) ∨
      ∃ c, l = .mark c ∧ markToken? afterOperand c = some token := by
  cases l with
  | numeral n =>
      simp only [meaning] at h
      split at h
      · cases h
      · split at h
        · exact .inl ⟨n, rfl, (Except.ok.inj h).symm⟩
        · cases h
  | word letters =>
      simp only [meaning] at h
      split at h
      · next t hword => exact .inr (.inl ⟨letters, t, rfl, (Except.ok.inj h).symm, hword⟩)
      · cases h
  | mark c =>
      simp only [meaning] at h
      split at h
      · next t hmark =>
          obtain rfl := Except.ok.inj h
          exact .inr (.inr ⟨c, rfl, hmark⟩)
      · cases h

/-- A lexeme has a meaning or is at fault, wherever it stands; the bound on the number of tokens is
none of its faults. -/
theorem Lexeme.meaning_cases (l : Lexeme) (afterOperand : Bool) :
    (∃ token, ∀ p, l.meaning afterOperand p = .ok token) ∨
      ∀ p, ∃ fault, l.meaning afterOperand p = .error fault ∧ fault ≠ .tooLong := by
  cases l with
  | numeral n =>
      simp only [Lexeme.meaning]
      split
      · exact .inr fun p => ⟨_, rfl, by simp⟩
      · split
        · exact .inl ⟨_, fun p => rfl⟩
        · exact .inr fun p => ⟨_, rfl, by simp⟩
  | word letters =>
      simp only [Lexeme.meaning]
      split
      · exact .inl ⟨_, fun p => rfl⟩
      · exact .inr fun p => ⟨_, rfl, by simp⟩
  | mark c =>
      simp only [Lexeme.meaning]
      split
      · exact .inl ⟨_, fun p => rfl⟩
      · exact .inr fun p => ⟨_, rfl, by simp⟩

theorem Lexeme.meaning_ok_iff (l : Lexeme) (afterOperand : Bool) (p q : Nat)
    (token : Option Token) :
    l.meaning afterOperand p = .ok token ↔ l.meaning afterOperand q = .ok token := by
  rcases l.meaning_cases afterOperand with ⟨own, hmeaning⟩ | hfault
  · rw [hmeaning p, hmeaning q]
  · obtain ⟨fault, hp, -⟩ := hfault p
    obtain ⟨fault', hq, -⟩ := hfault q
    simp [hp, hq]

/-- Lexemes that have a meaning are refused only if there are too many tokens. -/
theorem tokensOf_of_read? {afterOperand : Bool} {room : Nat} {lexemes : List (Nat × Lexeme)}
    {tokens : List Token} (h : read? afterOperand (lexemes.map (·.2)) = some tokens) :
    tokensOf afterOperand room lexemes
      = if tokens.length ≤ room then .ok tokens else .error .tooLong := by
  induction lexemes generalizing afterOperand room tokens with
  | nil =>
      cases h
      simp [tokensOf]
  | cons x lexemes ih =>
      obtain ⟨position, lexeme⟩ := x
      rw [List.map_cons, read?] at h
      rw [tokensOf]
      split at h
      · cases h
      · next hmeaning =>
          rw [(lexeme.meaning_ok_iff afterOperand position 0 none).2 hmeaning]
          exact ih h
      · next token hmeaning =>
          rw [(lexeme.meaning_ok_iff afterOperand position 0 _).2 hmeaning]
          obtain ⟨rest, hrest, rfl⟩ := Option.map_eq_some_iff.1 h
          cases room with
          | zero => simp
          | succ room =>
              simp only [ih hrest, List.length_cons, Nat.add_le_add_iff_right]
              split <;> rfl

/-- What `tokensOf` gives is what the lexemes stand for, and fits. -/
theorem read?_of_tokensOf {afterOperand : Bool} {room : Nat} {lexemes : List (Nat × Lexeme)}
    {tokens : List Token} (h : tokensOf afterOperand room lexemes = .ok tokens) :
    read? afterOperand (lexemes.map (·.2)) = some tokens ∧ tokens.length ≤ room := by
  induction lexemes generalizing afterOperand room tokens with
  | nil =>
      cases h
      exact ⟨rfl, Nat.zero_le _⟩
  | cons x lexemes ih =>
      obtain ⟨position, lexeme⟩ := x
      rw [tokensOf] at h
      rw [List.map_cons, read?]
      split at h
      · cases h
      · next hmeaning =>
          rw [(lexeme.meaning_ok_iff afterOperand position 0 none).1 hmeaning]
          exact ih h
      · next token hmeaning =>
          rw [(lexeme.meaning_ok_iff afterOperand position 0 _).1 hmeaning]
          cases room with
          | zero => cases h
          | succ room =>
              cases hrest : tokensOf token.endsOperand room lexemes with
              | error fault =>
                  simp only [hrest] at h
                  cases h
              | ok rest =>
                  simp only [hrest] at h
                  cases h
                  obtain ⟨hread, hlength⟩ := ih hrest
                  exact ⟨by simp [hread], by simpa using hlength⟩

/-- **What a text is read as**: the tokens of its lexemes, if they fit. -/
theorem tokenize_eq_ok_iff {source : String} {tokens : List Token} :
    tokenize source = .ok tokens
      ↔ read? false (Lexeme.cut source.toList) = some tokens ∧ tokens.length ≤ maxTokens := by
  constructor
  · intro h
    exact read?_of_tokensOf h
  · rintro ⟨hread, hlength⟩
    rw [tokenize, tokensOf_of_read? hread, if_pos hlength]

theorem length_le_of_tokenize {source : String} {tokens : List Token}
    (h : tokenize source = .ok tokens) : tokens.length ≤ maxTokens :=
  (tokenize_eq_ok_iff.1 h).2

/-- Whether a text has at most `maxTokens` tokens, as far as it can be read. -/
def Fits (source : String) : Prop := tokenize source ≠ .error .tooLong

theorem tokenize_of_read? {source : String} {tokens : List Token} (hfits : Fits source)
    (h : read? false (Lexeme.cut source.toList) = some tokens) : tokenize source = .ok tokens := by
  by_cases hlength : tokens.length ≤ maxTokens
  · exact tokenize_eq_ok_iff.2 ⟨h, hlength⟩
  · refine absurd ?_ hfits
    rw [tokenize, tokensOf_of_read? h, if_neg hlength]

theorem Lexeme.meaning_ne_tooLong (l : Lexeme) (afterOperand : Bool) (position : Nat) :
    l.meaning afterOperand position ≠ .error .tooLong := by
  intro heq
  rcases l.meaning_cases afterOperand with ⟨own, hmeaning⟩ | hfault
  · rw [hmeaning position] at heq
    cases heq
  · obtain ⟨fault, hposition, hne⟩ := hfault position
    rw [hposition] at heq
    exact hne (Except.error.inj heq)

theorem tokensOf_ne_tooLong {afterOperand : Bool} {room : Nat} {lexemes : List (Nat × Lexeme)}
    (h : lexemes.length ≤ room) : tokensOf afterOperand room lexemes ≠ .error .tooLong := by
  induction lexemes generalizing afterOperand room with
  | nil => simp [tokensOf]
  | cons x lexemes ih =>
      obtain ⟨position, lexeme⟩ := x
      rw [List.length_cons] at h
      rw [tokensOf]
      split
      · next hmeaning =>
          intro heq
          cases heq
          exact lexeme.meaning_ne_tooLong _ _ hmeaning
      · exact ih (by omega)
      · next token hmeaning =>
          cases room with
          | zero => omega
          | succ room =>
              have hrest : tokensOf token.endsOperand room lexemes ≠ .error .tooLong :=
                ih (by omega)
              intro heq
              cases htokens : tokensOf token.endsOperand room lexemes with
              | ok tokens => simp [htokens, Except.map] at heq
              | error fault =>
                  simp only [htokens, Except.map, Except.error.injEq] at heq
                  exact hrest (by rw [htokens, heq])

theorem Lexeme.length_scan_le (position : Nat) (cs : List Char) :
    (Lexeme.scan position cs).length ≤ cs.length := by
  fun_induction Lexeme.scan position cs with
  | case1 => simp
  | case2 position c rest hblank ih =>
      rw [List.length_cons]
      omega
  | case3 position c rest hblank ih =>
      have hshort := Lexeme.length_next_lt c rest
      rw [List.length_cons]
      omega

theorem fits_of_length_le {source : String} (h : source.length ≤ maxTokens) : Fits source := by
  have hcharacters : source.toList.length ≤ maxTokens := by rwa [String.length_toList]
  exact tokensOf_ne_tooLong (Nat.le_trans (Lexeme.length_scan_le 0 source.toList) hcharacters)

theorem Token.lastEndsOperand_cons (before : Bool) (token : Token) (tokens : List Token) :
    Token.lastEndsOperand before (token :: tokens)
      = Token.lastEndsOperand token.endsOperand tokens := by
  cases tokens with
  | nil => rfl
  | cons t tokens => simp [Token.lastEndsOperand, List.getLast?_cons]

theorem Token.lastEndsOperand_append (before : Bool) (first second : List Token) :
    Token.lastEndsOperand before (first ++ second)
      = Token.lastEndsOperand (Token.lastEndsOperand before first) second := by
  induction first generalizing before with
  | nil => rfl
  | cons token first ih =>
      rw [List.cons_append, Token.lastEndsOperand_cons, ih, Token.lastEndsOperand_cons]

/-- **Lexemes are read piece by piece.** -/
theorem read?_append (afterOperand : Bool) (first second : List Lexeme) :
    read? afterOperand (first ++ second) = (read? afterOperand first).bind fun tokens =>
      (read? (Token.lastEndsOperand afterOperand tokens) second).map (tokens ++ ·) := by
  induction first generalizing afterOperand with
  | nil => simp [read?, Token.lastEndsOperand]
  | cons lexeme first ih =>
      rw [List.cons_append, read?, read?]
      split
      · rfl
      · exact ih afterOperand
      · next token _ =>
          rw [ih token.endsOperand]
          cases hfirst : read? token.endsOperand first with
          | none => rfl
          | some tokens =>
              simp [Token.lastEndsOperand_cons, Option.map_map, Function.comp_def]

end DeskShell.Expression
