import DeskShell.Proofs.Expression.Boundaries
import DeskShell.Proofs.Expression.Owners

/-!
# Functions without parentheses

A function may be written without parentheses around its argument. If that is a number, the operator
behind it releases the function, as the parentheses would have done. But a sign between the two
stands behind no operator, and so is the sign of a group, as it is at the start of one: it waits for
the end of the group that the function stands in, and the function below it on the stack waits as
well. So `sqrt 4+5` is `sqrt(4)+5`, and `sqrt -4+5` is `sqrt(-4+5)`.
-/

set_option autoImplicit false

namespace DeskShell.Expression

open Arranger Text

/-! ## The machine -/

section Machine

variable {s : Arranger} {front tokens listing : List Token}

/-- A sign behind a function takes all that follows, and the function takes what the sign takes. -/
theorem Content.takes_function_neg (h : Content tokens listing) (f : Function)
    (hload : s.load + (tokens.length + 2) ≤ maxOutput) :
    s.Takes (.function f :: .neg :: tokens) (listing ++ [.neg] ++ [.function f])
      (· ≠ .opening) := by
  have hname := feed_function (s := s) f (by omega)
  have hload₁ := load_feed hname
  have hsign : feed ⟨s.output, .function f :: s.held, false⟩ .neg
      = .ok ⟨s.output, .groupSign :: .function f :: s.held, false⟩ :=
    feed_groupSign rfl (by omega)
  have hload₂ := load_feed hsign
  have hoperand := h ⟨s.output, .groupSign :: .function f :: s.held, false⟩ rfl
    (by simp [Held.waits_groupSign]) (by omega)
  exact Takes.push hname (Takes.push hsign hoperand (fun _ h => h) (by simp)) (fun _ h => h)
    (by simp)

/-- What is read behind other tokens is put between what these have sent to the output and what
they have left on the stack. -/
theorem Arranger.Takes.reversePolish_append (ht : s.Takes tokens listing (· ≠ .opening))
    (hrun : feedAll {} front = .ok s) (hheld : ∀ h ∈ s.held, h ≠ .opening)
    (hlength : front.length + tokens.length ≤ maxOutput) :
    Expression.reversePolish (front ++ tokens)
      = .ok (s.output ++ listing ++ s.held.map Held.token) := by
  obtain ⟨released, kept, b, hfeed, rfl, hkept⟩ := ht
  have hwhole : Takes {} (front ++ tokens)
      (s.output ++ (released ++ kept.map Held.token) ++ s.held.map Held.token)
      (· ≠ .opening) := by
    refine ⟨s.output ++ released, kept ++ s.held, b, ?_, by simp, fun h hh => ?_⟩
    · rw [feedAll_append_of_ok hrun, hfeed]
      simp
    · rcases List.mem_append.1 hh with hh | hh
      · exact hkept h hh
      · exact hheld h hh
  exact hwhole.reversePolish (by rw [List.length_append]; exact hlength)

/-- **A function with a number behind it** is a function of that number. -/
theorem reversePolish_function_number (front tokens : List Token) (f : Function) (v : Float)
    (op : Operator) (hlength : front.length + tokens.length + 5 ≤ maxTokens) :
    Expression.reversePolish (front ++ .function f :: .number v :: .operator op :: tokens)
      = Expression.reversePolish (front ++ .function f :: .opening :: .number v :: .closing
        :: .operator op :: tokens) := by
  have hends : Token.lastEndsOperand false (front ++ [.function f]) = false := by
    rw [Token.lastEndsOperand_append]
    rfl
  have hnext (t : Token) (ht : t ∈ (Token.operator op :: tokens).head?) :
      t.startsOperand = false := by
    cases ht
    rfl
  have hsame := reversePolish_parenthesised (v := v) hends hnext (fun _ => by simp)
    (by simp only [List.length_append, List.length_cons, List.length_nil]; omega)
  simpa using hsame.symm

/-- **A function with a sign behind it** is a function of all that follows. -/
theorem reversePolish_function_neg (hfront : ∃ first, Expression.reversePolish front = .ok first)
    (f : Function) (hbalanced : Balanced tokens)
    (hlength : front.length + tokens.length + 4 ≤ maxTokens) :
    ∃ listing, Expression.reversePolish (front ++ .function f :: .neg :: tokens) = .ok listing ∧
      Expression.reversePolish (front ++ .function f :: .opening :: (.neg :: tokens ++ [.closing]))
        = .ok listing := by
  have hbound : front.length + tokens.length + 4 ≤ maxOutput := hlength
  obtain ⟨first, hfirst⟩ := hfront
  obtain ⟨s, hrun, -, hheld⟩ := feedAll_of_reversePolish hfirst
  have hload : s.load ≤ 0 + front.length := load_feedAll hrun
  obtain ⟨listing, hlisting⟩ := exists_of_balanced hbalanced (by omega)
  have hcontent := Content.of_reversePolish hlisting
  have hbare := hcontent.takes_function_neg (s := s) f (by omega)
  have hgroup : Content (.neg :: tokens) (listing ++ [.neg]) :=
    .of_reversePolish ((hcontent.takes_neg (by omega)).reversePolish (by
      rw [List.length_cons]
      omega))
  have hname := feed_function (s := s) f (by omega)
  have hcalled := hgroup.takes_owned hname rfl (by rw [List.length_cons]; omega)
  refine ⟨_, hbare.reversePolish_append hrun hheld ?_, ?_⟩
  · simp only [List.length_cons]
    omega
  · refine (hcalled.weaken ?_).reversePolish_append hrun hheld ?_
    · rintro _ ⟨g, rfl⟩
      simp
    · simp only [List.length_cons, List.length_append, List.length_nil]
      omega

end Machine

/-! ## Texts -/

/-- A text with minus signs in front of it. -/
def signed (k : Nat) (text : String) : String := String.ofList (List.replicate k '-') ++ text

/-- What may stand in front of an operand: nothing, or a number and an operator. -/
inductive Lead : String → List Token → Prop
  | nothing : Lead "" []
  | operand {b : String} {w : Float} (h : tokenize b = .ok [.number w]) (op : Operator) :
      Lead (b ++ String.singleton op.symbol) [.number w, .operator op]

section Texts

variable {a : String} {v : Float}

theorem read?_signs (k : Nat) (cs : List Char) :
    read? false (Lexeme.cut (List.replicate k '-' ++ cs))
      = (read? false (Lexeme.cut cs)).map (List.replicate k .neg ++ ·) := by
  induction k with
  | zero => simp
  | succ k ih =>
      rw [List.replicate_succ, List.cons_append, read?_minus, ih, Option.map_map]
      rfl

theorem read?_number (h : tokenize a = .ok [.number v]) {c : Char} (hc : IsMark c)
    (cs : List Char) : read? false (Lexeme.cut (a.toList ++ c :: cs))
      = (read? true (Lexeme.cut (c :: cs))).map (Token.number v :: ·) := by
  have hread := (tokenize_eq_ok_iff.1 h).1
  rw [Lexeme.cut_append_mark hread hc, read?_append, hread]
  rfl

theorem read?_signed (h : tokenize a = .ok [.number v]) (k : Nat) (op : Operator)
    (cs : List Char) :
    read? false (Lexeme.cut (List.replicate k '-' ++ (a.toList ++ op.symbol :: cs)))
      = (read? false (Lexeme.cut cs)).map fun tokens =>
        List.replicate k .neg ++ .number v :: .operator op :: tokens := by
  rw [read?_signs, read?_number h (isMark_symbol op), read?_symbol, Option.map_map,
    Option.map_map]
  rfl

theorem Lead.read? {lead : String} {front : List Token} (h : Lead lead front) (cs : List Char) :
    Expression.read? false (Lexeme.cut (lead.toList ++ cs))
      = (Expression.read? false (Lexeme.cut cs)).map (front ++ ·) := by
  cases h with
  | nothing => simp
  | @operand b w h op =>
      have hlead := read?_signed h 0 op cs
      simpa using hlead

/-- A lead compiles on its own. -/
theorem Lead.reversePolish {lead : String} {front : List Token} (h : Lead lead front) :
    ∃ listing, Expression.reversePolish front = .ok listing := by
  cases h with
  | nothing => exact ⟨[], rfl⟩
  | @operand b w h op => exact ⟨[.number w, .operator op], rfl⟩

section Calls

variable {lead : String} {front : List Token} (f : Function) (k : Nat) (op : Operator)

theorem read?_called (h : tokenize a = .ok [.number v]) (hlead : Lead lead front) (rest : String) :
    read? false (Lexeme.cut (lead ++ f.name ++ "(" ++ signed k a ++ ")"
        ++ String.singleton op.symbol ++ rest).toList)
      = (read? false (Lexeme.cut rest.toList)).map fun tokens => front ++ .function f :: .opening
        :: (List.replicate k .neg ++ .number v :: .closing :: .operator op :: tokens) := by
  have htext : (lead ++ f.name ++ "(" ++ signed k a ++ ")" ++ String.singleton op.symbol
      ++ rest).toList = lead.toList ++ (f.name.toList ++ '(' :: (List.replicate k '-'
        ++ (a.toList ++ ')' :: op.symbol :: rest.toList))) := by simp [signed]
  rw [htext, hlead.read?, read?_function f false (by simp [isLetter]), read?_opening, read?_signs,
    read?_number h (by decide), read?_closing, read?_symbol]
  simp only [Option.map_map]
  rfl

theorem read?_bare (h : tokenize a = .ok [.number v]) (hlead : Lead lead front) (rest : String) :
    read? false (Lexeme.cut (lead ++ f.name ++ " " ++ signed k a
        ++ String.singleton op.symbol ++ rest).toList)
      = (read? false (Lexeme.cut rest.toList)).map fun tokens => front ++ .function f
        :: (List.replicate k .neg ++ .number v :: .operator op :: tokens) := by
  have htext : (lead ++ f.name ++ " " ++ signed k a ++ String.singleton op.symbol
      ++ rest).toList = lead.toList ++ (f.name.toList ++ ' ' :: (List.replicate k '-'
        ++ (a.toList ++ op.symbol :: rest.toList))) := by simp [signed]
  have hspaced (cs : List Char) : Lexeme.cut (' ' :: cs) = Lexeme.cut cs := Lexeme.cut_blank rfl cs
  rw [htext, hlead.read?, read?_function f false (by simp [isLetter]), hspaced, read?_signed h]
  simp only [Option.map_map]
  rfl

theorem read?_calledWhole (h : tokenize a = .ok [.number v]) (hlead : Lead lead front)
    {rest : String} {tokens : List Token}
    (hrest : read? false (Lexeme.cut rest.toList) = some tokens) :
    read? false (Lexeme.cut (lead ++ f.name ++ "(" ++ signed k a
        ++ String.singleton op.symbol ++ rest ++ ")").toList)
      = some (front ++ .function f :: .opening :: ((List.replicate k .neg
        ++ .number v :: .operator op :: tokens) ++ [.closing])) := by
  have htext : (lead ++ f.name ++ "(" ++ signed k a ++ String.singleton op.symbol ++ rest
      ++ ")").toList = lead.toList ++ (f.name.toList ++ '(' :: ((List.replicate k '-'
        ++ (a.toList ++ op.symbol :: rest.toList)) ++ ')' :: [])) := by simp [signed]
  have hnothing : read? true (Lexeme.cut []) = some [] := by simp [read?]
  have hsigned := read?_signed h k op rest.toList
  rw [hrest, Option.map_some] at hsigned
  rw [htext, hlead.read?, read?_function f false (by simp [isLetter]),
    read?_parenthesised false hsigned hnothing]
  rfl

end Calls

end Texts

/-- **A function without parentheses and the operand behind it.** A number is its argument, and the
text compiles to the same as with parentheses around the number. A number with signs is not: there
the argument is all that follows, up to the end. -/
theorem compile_bareFunction (f : Function) (k : Nat) (a rest lead : String) (v : Float)
    (op : Operator) (front polish : List Token) (ha : tokenize a = .ok [.number v])
    (hlead : Lead lead front)
    (h : compile (f.name ++ "(" ++ signed k a ++ ")" ++ String.singleton op.symbol ++ rest)
      = .ok polish)
    (hfits : Fits (lead ++ f.name ++ "(" ++ signed k a ++ ")" ++ String.singleton op.symbol
      ++ rest)) :
    ∃ listing,
      compile (lead ++ f.name ++ "(" ++ signed k a ++ ")" ++ String.singleton op.symbol ++ rest)
        = .ok listing ∧
      (k = 0 → compile (lead ++ f.name ++ " " ++ signed k a ++ String.singleton op.symbol ++ rest)
        = .ok listing) ∧
      (0 < k → ∃ other,
        compile (lead ++ f.name ++ " " ++ signed k a ++ String.singleton op.symbol ++ rest)
          = .ok other ∧
        compile (lead ++ f.name ++ "(" ++ signed k a ++ String.singleton op.symbol ++ rest ++ ")")
          = .ok other) := by
  obtain ⟨alone, halone, hpolish⟩ := bind_eq_ok h
  have hread := read?_called f k op ha .nothing rest
  rw [String.empty_append, (tokenize_eq_ok_iff.1 halone).1] at hread
  obtain ⟨tokens, hrest, rfl⟩ := Option.map_eq_some_iff.1 hread.symm
  rw [List.nil_append] at hpolish
  -- the rest is balanced, since what stands in front of it is
  have hcall := balanced_of_reversePolish hpolish
  have hsplit : Balanced ((Token.function f :: Token.opening :: (List.replicate k Token.neg
      ++ [Token.number v, Token.closing, Token.operator op])) ++ tokens) := by simpa using hcall
  have hbalanced : Balanced tokens := hsplit.of_append (by simp [List.count_replicate])
  have hcalled := read?_called f k op ha hlead rest
  have hbare := read?_bare f k op ha hlead rest
  have hwhole := read?_calledWhole f k op ha hlead hrest
  rw [hrest, Option.map_some] at hcalled hbare
  have htokens := tokenize_of_read? hfits hcalled
  have hlength := length_le_of_tokenize htokens
  simp only [List.length_append, List.length_cons, List.length_replicate] at hlength
  have htokens' := tokenize_eq_ok_iff.2 ⟨hbare, by
    simp only [List.length_append, List.length_cons, List.length_replicate]
    omega⟩
  have htokens'' := tokenize_eq_ok_iff.2 ⟨hwhole, by
    simp only [List.length_append, List.length_cons, List.length_replicate, List.length_nil]
    omega⟩
  rw [compile_of_tokenize htokens, compile_of_tokenize htokens', compile_of_tokenize htokens'']
  obtain ⟨first, hfirst⟩ := hlead.reversePolish
  obtain ⟨listing, hlisting⟩ := exists_of_balanced
    ((balanced_of_reversePolish hfirst).append hcall) (length_le_of_tokenize htokens)
  refine ⟨listing, hlisting, ?_, fun hk => ?_⟩
  · rintro rfl
    exact (reversePolish_function_number front tokens f v op (by omega)).trans hlisting
  · obtain ⟨k, rfl⟩ : ∃ n, k = n + 1 := ⟨k - 1, by omega⟩
    have hargument : Balanced (List.replicate k Token.neg
        ++ Token.number v :: Token.operator op :: tokens) := by
      have hsigns : Balanced (List.replicate k Token.neg) :=
        balanced_of_isParenthesis fun t ht => by rw [List.eq_of_mem_replicate ht]; rfl
      have hnumber : Balanced [Token.number v, Token.operator op] :=
        balanced_of_isParenthesis (by simp [Token.isParenthesis])
      exact hsigns.append (hnumber.append hbalanced)
    have hbound : front.length + (List.replicate k Token.neg
        ++ Token.number v :: Token.operator op :: tokens).length + 4 ≤ maxTokens := by
      simp only [List.length_append, List.length_cons, List.length_replicate]
      omega
    exact reversePolish_function_neg ⟨first, hfirst⟩ f hargument hbound

/-- A root of a number behind an operator, and one of a number with two signs, which takes the
summand behind it as well. -/
theorem compile_bareFunction_sqrt :
    (∃ listing, compile "2*sqrt(4)+5" = .ok listing ∧ compile "2*sqrt 4+5" = .ok listing) ∧
    compile "sqrt(--4)+5"
      = .ok [.number 4, .neg, .neg, .function .sqrt, .number 5, .operator .add] ∧
    compile "sqrt --4+5"
      = .ok [.number 4, .number 5, .operator .add, .neg, .neg, .function .sqrt] ∧
    compile "sqrt --4+5" = compile "sqrt(--4+5)" := by
  have hfour : tokenize "4" = .ok [.number 4] := by decide +kernel
  have htwo : tokenize "2" = .ok [.number 2] := by decide +kernel
  have hplain : compile "sqrt(4)+5"
      = .ok [.number 4, .function .sqrt, .number 5, .operator .add] := by decide +kernel
  have hsigned : compile "sqrt(--4)+5"
      = .ok [.number 4, .neg, .neg, .function .sqrt, .number 5, .operator .add] := by
    decide +kernel
  have hbare : compile "sqrt --4+5"
      = .ok [.number 4, .number 5, .operator .add, .neg, .neg, .function .sqrt] := by
    decide +kernel
  obtain ⟨listing, hlisting, hnumber, -⟩ := compile_bareFunction .sqrt 0 "4" "5" "2*" 4 .add _ _
    hfour (.operand htwo .mul) hplain (fits_of_length_le (by decide))
  obtain ⟨-, -, -, hsigns⟩ := compile_bareFunction .sqrt 2 "4" "5" "" 4 .add _ _ hfour .nothing
    hsigned (fits_of_length_le (by decide))
  obtain ⟨other, hother, hwhole⟩ := hsigns (by decide)
  exact ⟨⟨listing, hlisting, hnumber rfl⟩, hsigned, hbare, hother.trans hwhole.symm⟩

end DeskShell.Expression
