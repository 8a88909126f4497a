import DeskShell.Expression.Evaluate
import DeskShell.Proofs.Expression.Conservation
import DeskShell.Proofs.Expression.Lexing
import DeskShell.Proofs.Expression.Listing

/-!
# Bounds on an expression

Tokens, output, held operators and values are all bounded, but a text can only exceed the bound on
its tokens (`tooLong_of_evaluate`): the output of the stack machine is no longer than its tokens,
and a listing holds no more values at once than it has tokens. What the machine does within its
bounds depends on the parentheses alone (`reversePolish_balanced`).
-/

set_option autoImplicit false

namespace DeskShell.Expression

/-! ## Values -/

theorem Token.length_act {token : Token} {stack stack' : List Float}
    (h : token.act stack = .ok stack') : stack'.length ≤ stack.length + 1 := by
  cases Token.acts_of_act h with
  | number hroom => exact Nat.le_refl _
  | operator hvalue =>
      simp only [List.length_cons]
      omega
  | factorial hvalue | function hvalue | neg => exact Nat.le_succ _

/-- **A token that is refused** finds the stack full, or lacks operands, or has operands outside its
domain, or is a parenthesis. -/
theorem Token.fault_of_act {token : Token} {stack : List Float} {fault : Fault}
    (h : token.act stack = .error fault) :
    (fault.phase = .capacity ∧ maxValues ≤ stack.length) ∨
      fault.phase = .domain ∨ fault.phase = .arity ∨ fault.phase = .syntactic := by
  revert h
  fun_cases Token.act token stack with
  | case2 stack v hfull =>
      intro h
      cases h
      exact .inl ⟨rfl, Nat.le_of_not_lt hfull⟩
  -- an operation on its operands fails in its domain
  | case3 op y x rest =>
      intro h
      exact .inr (.inl (Operator.phase_of_apply (map_eq_error h)))
  | case5 x rest =>
      intro h
      exact .inr (.inl (phase_of_factorial (map_eq_error h)))
  | case7 f x rest =>
      intro h
      exact .inr (.inl (Function.phase_of_apply (map_eq_error h)))
  | case1 | case9 =>
      intro h
      cases h
  -- and without them for want of operands
  | case4 | case6 | case8 | case10 =>
      intro h
      cases h
      exact .inr (.inr (.inl rfl))
  | case11 | case12 =>
      intro h
      cases h
      exact .inr (.inr (.inr rfl))

/-- Only a stack that is full refuses a token for want of room. -/
theorem Token.full_of_act {token : Token} {stack : List Float} {fault : Fault}
    (h : token.act stack = .error fault) (hcapacity : fault.phase = .capacity) :
    maxValues ≤ stack.length := by
  rcases Token.fault_of_act h with ⟨-, hfull⟩ | hother | hother | hother
  · exact hfull
  · rw [hcapacity] at hother
    cases hother
  · rw [hcapacity] at hother
    cases hother
  · rw [hcapacity] at hother
    cases hother

/-- **A run on the stack of values** holds at most one value a token, so it finds the stack full
only behind as many tokens. -/
theorem full_of_foldlM_act {tokens : List Token} {stack : List Float} {fault : Fault}
    (h : tokens.foldlM (fun stack token => Token.act token stack) stack = .error fault)
    (hcapacity : fault.phase = .capacity) : maxValues < stack.length + tokens.length := by
  induction tokens generalizing stack with
  | nil => cases h
  | cons token rest ih =>
      rw [List.foldlM_cons] at h
      rw [List.length_cons]
      rcases bind_eq_error h with hact | ⟨next, hact, hrest⟩
      · have hfull := Token.full_of_act hact hcapacity
        omega
      · have hgrows := Token.length_act hact
        have hlater := ih hrest
        omega

/-- The values that are left at the end are never too many by a bound. -/
theorem phase_of_result {stack : List Float} {fault : Fault} (h : result stack = .error fault) :
    fault.phase = .domain ∨ fault.phase = .syntactic := by
  unfold result at h
  split at h
  · split at h
    · cases h
    · cases h
      exact .inl rfl
  · cases h
    exact .inr rfl

theorem phase_of_evaluatePolish {tokens : List Token} {fault : Fault}
    (h : evaluatePolish tokens = .error fault) (hlength : tokens.length ≤ maxValues) :
    fault.phase ≠ .capacity := by
  intro hcapacity
  rcases bind_eq_error h with hrun | ⟨stack, -, hresult⟩
  · have hfull := full_of_foldlM_act hrun hcapacity
    rw [List.length_nil] at hfull
    omega
  · have hresult' := phase_of_result hresult
    simp [hcapacity] at hresult'

/-! ## Texts -/

/-- A lexeme is refused for what it is, a text for its length besides. -/
theorem Lexeme.phase_of_meaning {l : Lexeme} {afterOperand : Bool} {position : Nat} {fault : Fault}
    (h : l.meaning afterOperand position = .error fault) : fault.phase = .lexical := by
  cases l with
  | numeral n =>
      simp only [meaning] at h
      split at h
      · cases h
        rfl
      · split at h
        · cases h
        · cases h
          rfl
  | word letters =>
      simp only [meaning] at h
      split at h
      · cases h
      · cases h
        rfl
  | mark c =>
      simp only [meaning] at h
      split at h
      · cases h
      · cases h
        rfl

theorem fault_of_tokensOf {afterOperand : Bool} {room : Nat} {lexemes : List (Nat × Lexeme)}
    {fault : Fault} (h : tokensOf afterOperand room lexemes = .error fault) :
    fault = .tooLong ∨ fault.phase = .lexical := by
  fun_induction tokensOf afterOperand room lexemes with
  | case1 => cases h
  | case2 afterOperand room position lexeme rest other hmeaning =>
      cases h
      exact .inr (Lexeme.phase_of_meaning hmeaning)
  | case3 afterOperand room position lexeme rest hmeaning ih => exact ih h
  | case4 afterOperand position lexeme rest token hmeaning =>
      cases h
      exact .inl rfl
  | case5 afterOperand position lexeme rest token hmeaning room ih => exact ih (map_eq_error h)

theorem compile_of_tokenize {source : String} {tokens : List Token}
    (h : tokenize source = .ok tokens) : compile source = reversePolish tokens := by
  rw [compile, h]
  rfl

theorem length_of_reversePolish {tokens : List Token} {fault : Fault}
    (h : reversePolish tokens = .error fault) (hcapacity : fault.phase = .capacity) :
    maxTokens < tokens.length := by
  rcases reversePolish_cases tokens with ⟨listing, hpolish, -⟩ | ⟨-, hlong⟩ | ⟨hpolish, -⟩
  · rw [hpolish] at h
    cases h
  · exact hlong
  · rw [hpolish] at h
    cases h
    cases hcapacity

theorem perm_of_reversePolish {tokens listing : List Token}
    (h : reversePolish tokens = .ok listing) :
    listing.Perm (tokens.filter (!·.isParenthesis)) ∧
      listing.filter Token.isNumber = tokens.filter Token.isNumber := by
  rcases reversePolish_cases tokens with ⟨other, hpolish, -, hkept⟩ | ⟨hpolish, -⟩ | ⟨hpolish, -⟩
  · rw [hpolish] at h
    cases h
    exact hkept
  · rw [hpolish] at h
    cases h
  · rw [hpolish] at h
    cases h

/-- **The only bound that an expression can exceed** is that on its tokens. -/
theorem tooLong_of_evaluate {source : String} {fault : Fault}
    (h : evaluate source = .error fault) (hcapacity : fault.phase = .capacity) :
    fault = .tooLong ∧ tokenize source = .error .tooLong := by
  rcases bind_eq_error h with hcompile | ⟨listing, hcompile, hvalue⟩
  · rcases bind_eq_error hcompile with htokens | ⟨tokens, htokens, hpolish⟩
    · rcases fault_of_tokensOf htokens with rfl | hlexical
      · exact ⟨rfl, htokens⟩
      · rw [hlexical] at hcapacity
        cases hcapacity
    · -- a text that can be read has no more tokens than there may be
      have hlength := length_le_of_tokenize htokens
      have hlong := length_of_reversePolish hpolish hcapacity
      omega
  · obtain ⟨tokens, htokens, hpolish⟩ := bind_eq_ok hcompile
    have hshorter : listing.length ≤ maxValues :=
      calc listing.length = (tokens.filter (!·.isParenthesis)).length :=
            (perm_of_reversePolish hpolish).1.length_eq
        _ ≤ tokens.length := List.length_filter_le _ _
        _ ≤ maxValues := length_le_of_tokenize htokens
    exact absurd hcapacity (phase_of_evaluatePolish hvalue hshorter)

/-- **Every token counts once.** Bringing tokens into post-order exceeds a bound only if there are
more than 128 of them. If it does not, it succeeds if and only if the parentheses are balanced, and
else says that they are not; where it succeeds, the listing has the same tokens without the
parentheses, the numbers in the same order. So the only bound that the text of an expression can
exceed is the one on its tokens. -/
theorem reversePolish_balanced (tokens : List Token) :
    (∀ fault, reversePolish tokens = .error fault → fault.phase = .capacity →
      128 < tokens.length) ∧
    ((∀ fault, reversePolish tokens = .error fault → fault.phase ≠ .capacity) →
      ((∃ listing, reversePolish tokens = .ok listing) ↔ Balanced tokens) ∧
      (¬ Balanced tokens → reversePolish tokens = .error .mismatchedParentheses)) ∧
    (∀ listing, reversePolish tokens = .ok listing →
      listing.Perm (tokens.filter (!·.isParenthesis)) ∧
      listing.filter Token.isNumber = tokens.filter Token.isNumber) ∧
    (∀ source fault, evaluate source = .error fault → fault.phase = .capacity →
      fault = .tooLong ∧ tokenize source = .error .tooLong) ∧
    Fault.mismatchedParentheses.phase = .syntactic ∧
    Fault.mismatchedParentheses.message = "Mismatched parentheses." ∧
    Fault.tooLong.message = "Expression too long." := by
  refine ⟨fun fault h hcapacity => length_of_reversePolish h hcapacity, ?_,
    fun listing h => perm_of_reversePolish h,
    fun source fault h hcapacity => tooLong_of_evaluate h hcapacity, rfl, rfl, rfl⟩
  intro hroom
  rcases reversePolish_cases tokens with
    ⟨listing, hpolish, hbalanced, -⟩ | ⟨hpolish, -⟩ | ⟨hpolish, hbalanced⟩
  · exact ⟨⟨fun _ => hbalanced, fun _ => ⟨listing, hpolish⟩⟩, fun h => absurd hbalanced h⟩
  · exact absurd rfl (hroom _ hpolish)
  · refine ⟨⟨?_, fun h => absurd h hbalanced⟩, fun _ => hpolish⟩
    rintro ⟨listing, hlisting⟩
    rw [hpolish] at hlisting
    cases hlisting

theorem evaluate_of_openings {n : Nat} (h : maxTokens < n) :
    evaluate (String.ofList (List.replicate n '(')) = .error .tooLong := by
  have hread : ∀ n, read? false (Lexeme.cut (List.replicate n '(')) =
      some (List.replicate n .opening) := by
    intro n
    induction n with
    | zero =>
        rw [List.replicate_zero, Lexeme.cut_nil]
        rfl
    | succ n ih =>
        rw [List.replicate_succ, read?_opening, ih, Option.map_some, List.replicate_succ]
  have htokens : tokenize (String.ofList (List.replicate n '(')) = .error .tooLong := by
    rw [tokenize, String.toList_ofList, tokensOf_of_read? (hread n),
      if_neg (by rw [List.length_replicate]; omega)]
  rw [evaluate, compile, htokens]
  rfl

theorem reversePolish_balanced_of_openings :
    reversePolish (List.replicate 129 .opening) = .error .tooComplex ∧
    128 < (List.replicate 129 Token.opening).length ∧
    ¬ Balanced [.closing, .opening] ∧
    reversePolish [.closing, .opening] = .error .mismatchedParentheses ∧
    [Token.number pi, .factorial].Perm
      ([Token.opening, .number pi, .closing, .factorial].filter (!·.isParenthesis)) ∧
    tokenize (String.ofList (List.replicate 129 '(')) = .error .tooLong := by
  have hcomplex : reversePolish (List.replicate 129 .opening) = .error .tooComplex := by rfl
  have hmismatched : reversePolish [.closing, .opening] = .error .mismatchedParentheses := by rfl
  have hroom : ∀ fault, reversePolish [.closing, .opening] = .error fault →
      fault.phase ≠ .capacity := by
    intro fault h
    rw [hmismatched] at h
    cases h
    exact fun heq => by cases heq
  have hunbalanced : ¬ Balanced [.closing, .opening] := by
    intro h
    have hfirst := h.nested [.closing] ⟨[.opening], rfl⟩
    simp at hfirst
  have hpolish : reversePolish [.opening, .number pi, .closing, .factorial]
      = .ok [.number pi, .factorial] := by rfl
  exact ⟨hcomplex, (reversePolish_balanced _).1 _ hcomplex rfl, hunbalanced,
    ((reversePolish_balanced _).2.1 hroom).2 hunbalanced,
    ((reversePolish_balanced _).2.2.1 _ hpolish).1,
    ((reversePolish_balanced []).2.2.2.1 _ _ (evaluate_of_openings (by decide)) rfl).2⟩

end DeskShell.Expression
