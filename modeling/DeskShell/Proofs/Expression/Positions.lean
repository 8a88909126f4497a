import DeskShell.Proofs.Expression.Bounds

/-!
# Positions of faults

A lexical fault names the byte where its lexeme starts, and that is all that positions are good for:
where the lexemes of a text move, the tokens stay as they are and the position of a fault moves with
its lexeme (`tokensOf_moved`). No other fault has a position (`phase_of_evaluation`).

Lists of lexemes with their positions are read piece by piece (`tokensOf_append`), and the bound on
the tokens counts for nothing as long as it is kept (`tokensOf_of_le`).
-/

set_option autoImplicit false

namespace DeskShell.Expression

open Text

/-! ## Moving -/

def Fault.moved (move : Nat → Nat) : Fault → Fault
  | invalidNumber p => .invalidNumber (move p)
  | numberOutOfRange p => .numberOutOfRange (move p)
  | unknownWord word p => .unknownWord word (move p)
  | invalidCharacter c p => .invalidCharacter c (move p)
  | fault => fault

theorem Fault.moved_of_phase {move : Nat → Nat} {fault : Fault} (h : fault.phase ≠ .lexical) :
    fault.moved move = fault := by
  cases fault <;> first | rfl | exact absurd rfl h

section Move

variable (move : Nat → Nat)

theorem Lexeme.meaning_moved (l : Lexeme) (afterOperand : Bool) (position : Nat) :
    l.meaning afterOperand (move position)
      = (l.meaning afterOperand position).mapError (Fault.moved move) := by
  cases l with
  | numeral n =>
      simp only [meaning]
      split
      · rfl
      · split <;> rfl
  | word letters | mark c =>
      simp only [meaning]
      split <;> rfl

/-- **Where lexemes move, faults move with them.** -/
theorem tokensOf_moved (afterOperand : Bool) (room : Nat) (lexemes : List (Nat × Lexeme)) :
    tokensOf afterOperand room (lexemes.map fun x => (move x.1, x.2))
      = (tokensOf afterOperand room lexemes).mapError (Fault.moved move) := by
  fun_induction tokensOf afterOperand room lexemes with
  | case1 => rfl
  | case2 afterOperand room position lexeme rest fault hmeaning =>
      rw [List.map_cons, tokensOf, Lexeme.meaning_moved, hmeaning]
      rfl
  | case3 afterOperand room position lexeme rest hmeaning ih =>
      rw [List.map_cons, tokensOf, Lexeme.meaning_moved, hmeaning]
      exact ih
  | case4 afterOperand position lexeme rest token hmeaning =>
      rw [List.map_cons, tokensOf, Lexeme.meaning_moved, hmeaning]
      rfl
  | case5 afterOperand position lexeme rest token hmeaning room ih =>
      rw [List.map_cons, tokensOf, Lexeme.meaning_moved, hmeaning]
      show (tokensOf token.endsOperand room _).map (token :: ·) = _
      rw [ih]
      cases tokensOf token.endsOperand room rest <;> rfl

end Move

/-! ## Piece by piece -/

theorem tokensOf_cons_of_meaning {l : Lexeme} {afterOperand : Bool} {position room : Nat}
    {token : Token} (h : l.meaning afterOperand position = .ok (some token))
    (rest : List (Nat × Lexeme)) : tokensOf afterOperand (room + 1) ((position, l) :: rest)
      = (tokensOf token.endsOperand room rest).map (token :: ·) := by
  rw [tokensOf, h]

/-- A token that is taken has had room, and has left some for the others. -/
theorem exists_room {l : Lexeme} {afterOperand : Bool} {position room : Nat} {token : Token}
    {rest : List (Nat × Lexeme)} (hmeaning : l.meaning afterOperand position = .ok (some token))
    (h : tokensOf afterOperand room ((position, l) :: rest) ≠ .error .tooLong) :
    ∃ left, room = left + 1 ∧ tokensOf token.endsOperand left rest ≠ .error .tooLong := by
  cases room with
  | zero => exact absurd (by rw [tokensOf, hmeaning]) h
  | succ left =>
      refine ⟨left, rfl, fun heq => h ?_⟩
      rw [tokensOf_cons_of_meaning hmeaning, heq]
      rfl

theorem tokensOf_append (afterOperand : Bool) (room : Nat) (first second : List (Nat × Lexeme)) :
    tokensOf afterOperand room (first ++ second)
      = (tokensOf afterOperand room first).bind fun tokens =>
        (tokensOf (Token.lastEndsOperand afterOperand tokens) (room - tokens.length) second).map
          (tokens ++ ·) := by
  fun_induction tokensOf afterOperand room first with
  | case1 afterOperand room =>
      rw [List.nil_append]
      show _ = (tokensOf afterOperand room second).map id
      cases tokensOf afterOperand room second <;> rfl
  | case2 afterOperand room position lexeme rest fault hmeaning =>
      rw [List.cons_append, tokensOf, hmeaning]
      rfl
  | case3 afterOperand room position lexeme rest hmeaning ih =>
      rw [List.cons_append, tokensOf, hmeaning]
      exact ih
  | case4 afterOperand position lexeme rest token hmeaning =>
      rw [List.cons_append, tokensOf, hmeaning]
      rfl
  | case5 afterOperand position lexeme rest token hmeaning room ih =>
      rw [List.cons_append, tokensOf_cons_of_meaning hmeaning, ih]
      cases hrest : tokensOf token.endsOperand room rest with
      | error fault => rfl
      | ok tokens =>
          show Except.map _ (Except.map _ _) = Except.map _ (tokensOf _ _ second)
          rw [Token.lastEndsOperand_cons, List.length_cons, Nat.succ_sub_succ]
          cases tokensOf (Token.lastEndsOperand token.endsOperand tokens) (room - tokens.length)
            second <;> rfl

theorem tokensOf_of_le {afterOperand : Bool} {room more : Nat} {lexemes : List (Nat × Lexeme)}
    (h : tokensOf afterOperand room lexemes ≠ .error .tooLong) (hle : room ≤ more) :
    tokensOf afterOperand more lexemes = tokensOf afterOperand room lexemes := by
  fun_induction tokensOf afterOperand room lexemes generalizing more with
  | case1 => rfl
  | case2 afterOperand room position lexeme rest fault hmeaning => rw [tokensOf, hmeaning]
  | case3 afterOperand room position lexeme rest hmeaning ih =>
      rw [tokensOf, hmeaning]
      exact ih h hle
  | case4 => exact absurd rfl h
  | case5 afterOperand position lexeme rest token hmeaning room ih =>
      obtain ⟨more, rfl⟩ : ∃ n, more = n + 1 := ⟨more - 1, by omega⟩
      have hrest : tokensOf token.endsOperand room rest ≠ .error .tooLong := by
        intro heq
        rw [heq] at h
        exact h rfl
      rw [tokensOf_cons_of_meaning hmeaning, ih hrest (by omega)]

/-! ## Faults without a position -/

theorem Token.phase_of_act {token : Token} {stack : List Float} {fault : Fault}
    (h : token.act stack = .error fault) : fault.phase ≠ .lexical := by
  rcases Token.fault_of_act h with ⟨hphase, -⟩ | hphase | hphase | hphase <;> simp [hphase]

theorem phase_of_foldlM_act {tokens : List Token} {stack : List Float} {fault : Fault}
    (h : tokens.foldlM (fun stack token => Token.act token stack) stack = .error fault) :
    fault.phase ≠ .lexical := by
  induction tokens generalizing stack with
  | nil => cases h
  | cons token rest ih =>
      rw [List.foldlM_cons] at h
      rcases bind_eq_error h with hact | ⟨next, -, hrest⟩
      · exact Token.phase_of_act hact
      · exact ih hrest

/-- **What can be read is refused without a position.** -/
theorem phase_of_evaluation {tokens : List Token} {fault : Fault}
    (h : (reversePolish tokens).bind evaluatePolish = .error fault) : fault.phase ≠ .lexical := by
  rcases bind_eq_error h with hpolish | ⟨listing, -, hvalue⟩
  · rcases reversePolish_cases tokens with ⟨listing, hok, -⟩ | ⟨hfault, -⟩ | ⟨hfault, -⟩
    · rw [hok] at hpolish
      cases hpolish
    · obtain rfl := Except.error.inj (hfault.symm.trans hpolish)
      simp [Fault.phase]
    · obtain rfl := Except.error.inj (hfault.symm.trans hpolish)
      simp [Fault.phase]
  · rcases bind_eq_error hvalue with hrun | ⟨stack, -, hresult⟩
    · exact phase_of_foldlM_act hrun
    · rcases phase_of_result hresult with hphase | hphase <;> simp [hphase]

end DeskShell.Expression
