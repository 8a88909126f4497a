import DeskShell.Proofs.Expression.Numerals
import DeskShell.Proofs.Expression.Positions

/-!
# What is read is ASCII

Blanks, numerals, words and the marks that mean something consist of ASCII characters, so a text
that has been read holds no other (`ascii_of_tokenize`). Up to the first fault, characters and bytes
are therefore the same, and so is reading by the one or by the other (`byteCount_of_ascii`).
-/

set_option autoImplicit false

namespace DeskShell.Expression

open Text

/-! ## Characters -/

theorem toNat_lt_of_isDigit {c : Char} (h : c.isDigit = true) : c.toNat < 128 := by
  simp only [Char.isDigit, Bool.and_eq_true, decide_eq_true_eq, ge_iff_le,
    UInt32.le_iff_toNat_le] at h
  change 48 ≤ c.toNat ∧ c.toNat ≤ 57 at h
  omega

theorem toNat_lt_of_isLetter {c : Char} (h : isLetter c = true) : c.toNat < 128 := by
  simp only [isLetter, Char.isAlpha, Char.isUpper, Char.isLower, Bool.or_eq_true, Bool.and_eq_true,
    decide_eq_true_eq, ge_iff_le, UInt32.le_iff_toNat_le] at h
  change (65 ≤ c.toNat ∧ c.toNat ≤ 90) ∨ (97 ≤ c.toNat ∧ c.toNat ≤ 122) at h
  omega

theorem toNat_lt_of_isAsciiBlank {c : Char} (h : isAsciiBlank c = true) : c.toNat < 128 := by
  simp only [isAsciiBlank, Bool.or_eq_true, beq_iff_eq] at h
  rcases h with (((rfl | rfl) | rfl) | rfl) | rfl <;> decide

theorem toNat_lt_of_markToken? {afterOperand : Bool} {c : Char} {token : Option Token}
    (h : markToken? afterOperand c = some token) : c.toNat < 128 := by
  unfold markToken? at h
  split at h
  case h_9 => cases h
  all_goals decide

theorem byteCount_of_ascii {cs : List Char} (h : ∀ c ∈ cs, c.toNat < 128) :
    byteCount cs = cs.length := by
  induction cs with
  | nil => rfl
  | cons c cs ih =>
      rw [List.forall_mem_cons] at h
      have hsize : c.utf8Size = 1 := by
        rw [Char.utf8Size_eq_one_iff, UInt32.le_iff_toNat_le]
        exact Nat.le_of_lt_succ h.1
      rw [byteCount, hsize, ih h.2, List.length_cons, Nat.add_comm]

/-! ## Lexemes -/

theorem Exponent.Proper.ascii {e : Exponent} (h : e.Proper) : ∀ c ∈ e.text, c.toNat < 128 := by
  intro c hc
  simp only [text, List.mem_cons, List.mem_append, Option.mem_toList] at hc
  rcases hc with rfl | hsign | hdigit
  · rcases h.marker with hmarker | hmarker <;> rw [hmarker] <;> decide
  · rcases h.sign c hsign with rfl | rfl <;> decide
  · exact toNat_lt_of_isDigit (h.isDigit c hdigit)

theorem Exponent.ascii_read (cs : List Char) :
    ∀ c ∈ (read cs).1.elim [] text, c.toNat < 128 := by
  intro c hc
  cases hread : (read cs).1 with
  | none =>
      rw [hread] at hc
      cases hc
  | some e =>
      rw [hread] at hc
      exact (proper_read (Prod.ext hread rfl)).ascii c hc

theorem Numeral.ascii_readFraction (cs : List Char) :
    ∀ c ∈ (readFraction cs).1.elim [] ('.' :: ·), c.toNat < 128 := by
  intro c hc
  unfold readFraction at hc
  split at hc
  · rcases List.mem_cons.1 hc with rfl | hc
    · decide
    · exact toNat_lt_of_isDigit (List.mem_takeWhile_imp hc)
  · cases hc

/-- A numeral is ASCII, even if no digit is in it. -/
theorem Numeral.ascii_read (cs : List Char) : ∀ c ∈ (read cs).1.text, c.toNat < 128 := by
  intro c hc
  simp only [read, text, List.mem_append] at hc
  rcases hc with (hwhole | hpoint) | hpower
  · exact toNat_lt_of_isDigit (List.mem_takeWhile_imp hwhole)
  · exact ascii_readFraction _ c hpoint
  · exact Exponent.ascii_read _ c hpower

namespace Lexeme

/-- Only a mark may be another character. -/
theorem mark_or_ascii_next (c : Char) (rest : List Char) :
    (∃ m, (next c rest).1 = mark m) ∨ ∀ d ∈ (next c rest).1.text, d.toNat < 128 := by
  simp only [next]
  split
  · exact .inr (Numeral.ascii_read (c :: rest))
  · split
    · next hletter =>
        refine .inr (List.forall_mem_cons.2 ⟨toNat_lt_of_isLetter hletter, fun d hd => ?_⟩)
        exact toNat_lt_of_isLetter (List.mem_takeWhile_imp hd)
    · exact .inl ⟨c, rfl⟩

theorem ascii_of_meaning {c : Char} {rest : List Char} {afterOperand : Bool} {position : Nat}
    {token : Option Token} (h : (next c rest).1.meaning afterOperand position = .ok token) :
    ∀ d ∈ (next c rest).1.text, d.toNat < 128 := by
  rcases mark_or_ascii_next c rest with ⟨m, hmark⟩ | hascii
  · rw [hmark] at h ⊢
    rcases cases_of_meaning h with ⟨_, heq, -⟩ | ⟨_, _, heq, -⟩ | ⟨m', heq, hmeaning⟩
    · cases heq
    · cases heq
    · cases heq
      exact List.forall_mem_singleton.2 (toNat_lt_of_markToken? hmeaning)
  · exact hascii

end Lexeme

/-! ## Texts -/

/-- Of lexemes that are taken, the first one means something and the others are taken. -/
theorem exists_of_tokensOf_cons {afterOperand : Bool} {room position : Nat} {l : Lexeme}
    {rest : List (Nat × Lexeme)} {tokens : List Token}
    (h : tokensOf afterOperand room ((position, l) :: rest) = .ok tokens) :
    (∃ token, l.meaning afterOperand position = .ok token) ∧
      ∃ afterOperand' room' tokens', tokensOf afterOperand' room' rest = .ok tokens' := by
  rw [tokensOf] at h
  cases hmeaning : l.meaning afterOperand position with
  | error fault => simp [hmeaning] at h
  | ok token =>
      refine ⟨⟨token, rfl⟩, ?_⟩
      cases token with
      | none => exact ⟨_, _, _, by simpa [hmeaning] using h⟩
      | some token =>
          cases room with
          | zero => simp [hmeaning] at h
          | succ room =>
              simp only [hmeaning] at h
              cases hrest : tokensOf token.endsOperand room rest with
              | error fault => simp [hrest, Except.map] at h
              | ok tokens' => exact ⟨_, _, _, hrest⟩

theorem ascii_of_tokensOf {position : Nat} {cs : List Char} {afterOperand : Bool} {room : Nat}
    {tokens : List Token}
    (h : tokensOf afterOperand room (Lexeme.scan position cs) = .ok tokens) :
    ∀ c ∈ cs, c.toNat < 128 := by
  fun_induction Lexeme.scan position cs generalizing afterOperand room tokens with
  | case1 => simp
  | case2 position c rest hblank ih =>
      exact List.forall_mem_cons.2 ⟨toNat_lt_of_isAsciiBlank hblank, ih h⟩
  | case3 position c rest hblank ih =>
      obtain ⟨⟨token, hmeaning⟩, _, _, _, hrest⟩ := exists_of_tokensOf_cons h
      rw [← Lexeme.next_text c rest]
      exact List.forall_mem_append.2 ⟨Lexeme.ascii_of_meaning hmeaning, ih hrest⟩

/-- **A text that is read is ASCII.** -/
theorem ascii_of_tokenize {source : String} {tokens : List Token}
    (h : tokenize source = .ok tokens) : ∀ c ∈ source.toList, c.toNat < 128 :=
  ascii_of_tokensOf h

end DeskShell.Expression
