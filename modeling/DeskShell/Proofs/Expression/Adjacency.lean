import DeskShell.Proofs.Expression.Bounds

/-!
# Neighbours among the tokens of an expression

In an expression, operands and operators take turns: directly behind the end of an operand no other
operand starts, and everywhere else one has to. Nothing checks this. What evaluates has no more than
the right number of operators, so an operator that is missing in one place is made up for by one too
many in another (`missing_of_evaluate`), as in `2 3 +`; where no operator is missing, no operand is
either, and the tokens are an infix expression (`Infix.of_missing`).
-/

set_option autoImplicit false

namespace DeskShell.Expression

/-! ## Neighbours -/

def Token.startsOperand : Token → Bool
  | number _ | function _ | neg | opening => true
  | operator _ | factorial | closing => false

def Token.isOperator : Token → Bool
  | operator _ => true
  | _ => false

/-- The number of places where an operand starts directly behind the end of another one. -/
def missingOperators (afterOperand : Bool) : List Token → Nat
  | [] => 0
  | t :: rest =>
      (if afterOperand && t.startsOperand then 1 else 0) + missingOperators t.endsOperand rest

/-- The number of places where no operand has just ended and none starts, the end included. -/
def missingOperands (afterOperand : Bool) : List Token → Nat
  | [] => if afterOperand then 0 else 1
  | t :: rest =>
      (if afterOperand || t.startsOperand then 0 else 1) + missingOperands t.endsOperand rest

/-- An infix expression, as far as neighbours show: operands are kept apart, no parentheses are
empty, and every binary operator stands between the end of an operand and the start of one. -/
structure Infix (tokens : List Token) : Prop where
  separate : ∀ x y, [x, y] <:+: tokens → x.endsOperand = true → y.startsOperand = false
  filled : ¬ [.opening, .closing] <:+: tokens
  behind : ∀ x op, [x, .operator op] <:+: tokens → x.endsOperand = true
  before : ∀ op y, [.operator op, y] <:+: tokens → y.startsOperand = true
  start : ∀ op, tokens.head? ≠ some (.operator op)
  stop : ∀ op, tokens.getLast? ≠ some (.operator op)

section Neighbours

variable {b : Bool} {tokens : List Token}

theorem missingOperators_append (b : Bool) (first second : List Token) :
    missingOperators b (first ++ second)
      = missingOperators b first
        + missingOperators (Token.lastEndsOperand b first) second := by
  induction first generalizing b with
  | nil => simp [missingOperators, Token.lastEndsOperand]
  | cons t first ih =>
      rw [List.cons_append, missingOperators, missingOperators, ih, Token.lastEndsOperand_cons,
        Nat.add_assoc]

theorem missingOperators_eq_zero
    (hseparate : ∀ x y, [x, y] <:+: tokens → x.endsOperand = true → y.startsOperand = false)
    (hfirst : b = true → ∀ y ∈ tokens.head?, y.startsOperand = false) :
    missingOperators b tokens = 0 := by
  induction tokens generalizing b with
  | nil => rfl
  | cons t rest ih =>
      have hrest : missingOperators t.endsOperand rest = 0 := by
        refine ih (fun x y hxy => hseparate x y (hxy.trans ⟨[t], [], by simp⟩)) ?_
        intro hends y hy
        obtain ⟨more, rfl⟩ := List.head?_eq_some_iff.1 hy
        exact hseparate t y ⟨[], more, rfl⟩ hends
      rw [missingOperators, hrest]
      cases b with
      | false => rfl
      | true => simp [hfirst rfl t rfl]

theorem startsOperand_of_missingOperators {x y : Token} (h : missingOperators b tokens = 0)
    (hxy : [x, y] <:+: tokens) (hends : x.endsOperand = true) : y.startsOperand = false := by
  obtain ⟨before, after, rfl⟩ := hxy
  induction before generalizing b with
  | nil =>
      by_contra hstarts
      simp [missingOperators, hends, hstarts] at h
  | cons t before ih =>
      simp only [List.cons_append, missingOperators] at h
      exact ih (Nat.eq_zero_of_add_eq_zero_left h)

/-- Where no operand is missing, one starts behind every token that ends none. -/
theorem startsOperand_of_missingOperands {x y : Token} (h : missingOperands b tokens = 0)
    (hxy : [x, y] <:+: tokens) (hends : x.endsOperand = false) : y.startsOperand = true := by
  obtain ⟨before, after, rfl⟩ := hxy
  induction before generalizing b with
  | nil =>
      by_contra hstarts
      simp [missingOperands, hends, hstarts] at h
  | cons t before ih =>
      simp only [List.cons_append, missingOperands] at h
      exact ih (Nat.eq_zero_of_add_eq_zero_left h)

theorem endsOperand_of_missingOperands {x : Token} (h : missingOperands b tokens = 0)
    (hlast : tokens.getLast? = some x) : x.endsOperand = true := by
  obtain ⟨before, rfl⟩ := List.getLast?_eq_some_iff.1 hlast
  induction before generalizing b with
  | nil =>
      by_contra hends
      simp [missingOperands, hends] at h
  | cons t before ih =>
      simp only [List.cons_append, missingOperands] at h
      exact ih (Nat.eq_zero_of_add_eq_zero_left h) (by simp)

theorem Infix.of_missing (hoperands : missingOperands false tokens = 0)
    (hseparate : ∀ x y, [x, y] <:+: tokens → x.endsOperand = true → y.startsOperand = false) :
    Infix tokens where
  separate := hseparate
  filled hgroup := by
    have hstarts := startsOperand_of_missingOperands hoperands hgroup rfl
    cases hstarts
  behind x op hxy := by
    by_contra hends
    have hstarts := startsOperand_of_missingOperands hoperands hxy (by simpa using hends)
    cases hstarts
  before op y hxy := startsOperand_of_missingOperands hoperands hxy rfl
  start op hhead := by
    obtain ⟨rest, rfl⟩ := List.head?_eq_some_iff.1 hhead
    simp [missingOperands, Token.startsOperand] at hoperands
  stop op hlast := by
    have hends := endsOperand_of_missingOperands hoperands hlast
    cases hends

/-! ## Accounts -/

/-- **One account for a list of tokens**: one more operand than there are operators, short of what
is missing on either side. -/
theorem missing_balance (b : Bool) (tokens : List Token) :
    missingOperands b tokens + tokens.countP Token.isNumber
      = (if b then 0 else 1) + tokens.countP Token.isOperator + missingOperators b tokens := by
  induction tokens generalizing b with
  | nil => cases b <;> rfl
  | cons t rest ih =>
      have hrest := ih t.endsOperand
      cases t with
      | number v | operator op | factorial | function f | neg | opening | closing =>
          cases b <;>
            simp [missingOperands, missingOperators, Token.startsOperand, Token.endsOperand,
              Token.isNumber, Token.isOperator, List.countP_cons] at hrest ⊢ <;>
            omega

theorem Tree.countP_postOrder (t : Tree) :
    t.postOrder.countP Token.isNumber = t.postOrder.countP Token.isOperator + 1 := by
  induction t with
  | number v => rfl
  | binary op l r ihl ihr =>
      simp [postOrder, Token.isNumber, Token.isOperator, ihl, ihr]
      omega
  | factorial t ih | function f t ih | neg t ih =>
      simp [postOrder, Token.isNumber, Token.isOperator, ih]

/-- What is counted in the listing is counted in the tokens, as long as it is no parenthesis. -/
theorem countP_of_reversePolish {listing : List Token} (h : reversePolish tokens = .ok listing)
    {p : Token → Bool} (hp : ∀ t, p t = true → t.isParenthesis = false) :
    listing.countP p = tokens.countP p := by
  rw [(perm_of_reversePolish h).1.countP_eq, List.countP_filter]
  refine List.countP_congr fun t _ => ?_
  simp only [Bool.and_eq_true, Bool.not_eq_true', and_iff_left_iff_imp]
  exact hp t

end Neighbours

/-- What evaluates lacks as many operands as operators. -/
theorem missing_of_evaluate {source : String} {v : Float} (h : evaluate source = .ok v) :
    ∃ tokens, tokenize source = .ok tokens ∧
      missingOperands false tokens = missingOperators false tokens := by
  obtain ⟨listing, hcompile, hvalue⟩ := bind_eq_ok h
  obtain ⟨tokens, htokens, hpolish⟩ := bind_eq_ok hcompile
  obtain ⟨t, rfl, -⟩ := tree_of_evaluatePolish hvalue
  have hnumbers := countP_of_reversePolish (p := Token.isNumber) hpolish
    fun t ht => by cases t <;> simp_all [Token.isNumber, Token.isParenthesis]
  have hoperators := countP_of_reversePolish (p := Token.isOperator) hpolish
    fun t ht => by cases t <;> simp_all [Token.isOperator, Token.isParenthesis]
  have hbalance := missing_balance false tokens
  rw [← hnumbers, ← hoperators, t.countP_postOrder] at hbalance
  simp only [Bool.false_eq_true, if_false] at hbalance
  exact ⟨tokens, htokens, by omega⟩

/-- **What evaluates is an infix expression if operands are kept apart.** In any case there are as
many places where an operand starts directly behind another one as there are places where one is
missing; so if there are none of the former, all neighbours are those of an infix expression. -/
theorem tokens_of_evaluate {source : String} {v : Float} (h : evaluate source = .ok v) :
    ∃ tokens, tokenize source = .ok tokens ∧
      missingOperands false tokens = missingOperators false tokens ∧
      ((∀ x y, [x, y] <:+: tokens → x.endsOperand = true → y.startsOperand = false) →
        Infix tokens) := by
  obtain ⟨tokens, htokens, hmissing⟩ := missing_of_evaluate h
  refine ⟨tokens, htokens, hmissing, fun hseparate => .of_missing ?_ hseparate⟩
  rw [hmissing]
  exact missingOperators_eq_zero hseparate (by simp)

/-- A product with a signed operand, and a group behind a sign that is an operator. -/
theorem tokens_of_evaluate_difference :
    let tokens : List Token := [.number 2, .operator .mul, .neg, .number 1, .operator .sub,
      .opening, .number 3, .closing, .factorial]
    evaluate "2*-1-(3)!" = .ok (-8) ∧ tokenize "2*-1-(3)!" = .ok tokens ∧
      (∀ x y, [x, y] <:+: tokens → x.endsOperand = true → y.startsOperand = false) ∧
      Infix tokens := by
  intro tokens
  have hvalue : evaluate "2*-1-(3)!" = .ok (-8) := by decide +kernel
  have hread : tokenize "2*-1-(3)!" = .ok tokens := by decide +kernel
  have hnone : missingOperators false tokens = 0 := rfl
  have hseparate (x y : Token) (hxy : [x, y] <:+: tokens) :
      x.endsOperand = true → y.startsOperand = false :=
    startsOperand_of_missingOperators hnone hxy
  obtain ⟨other, hother, -, hneighbours⟩ := tokens_of_evaluate hvalue
  obtain rfl := Except.ok.inj (hother.symm.trans hread)
  exact ⟨hvalue, hread, hseparate, hneighbours hseparate⟩

/-- **Other orders evaluate too**: operands before their operator, an operator before its operands,
and empty parentheses in the place of one that is made up for. -/
theorem evaluate_other_orders :
    (evaluate "2 3 +" = .ok 5 ∧ ∃ tokens, tokenize "2 3 +" = .ok tokens ∧ ¬ Infix tokens) ∧
    (evaluate "*2 3" = .ok 6 ∧ ∃ tokens, tokenize "*2 3" = .ok tokens ∧ ¬ Infix tokens) ∧
    (evaluate "()3" = .ok 3 ∧ ∃ tokens, tokenize "()3" = .ok tokens ∧ ¬ Infix tokens) := by
  have hpostfix : tokenize "2 3 +" = .ok [.number 2, .number 3, .operator .add] := by
    decide +kernel
  have hprefix : tokenize "*2 3" = .ok [.operator .mul, .number 2, .number 3] := by
    decide +kernel
  have hempty : tokenize "()3" = .ok [.opening, .closing, .number 3] := by
    decide +kernel
  refine ⟨⟨by decide +kernel, _, hpostfix, fun h => ?_⟩,
    ⟨by decide +kernel, _, hprefix, fun h => ?_⟩, ⟨by decide +kernel, _, hempty, fun h => ?_⟩⟩
  · exact h.stop .add rfl
  · exact h.start .mul rfl
  · exact h.filled ⟨[], [.number 3], rfl⟩

end DeskShell.Expression
