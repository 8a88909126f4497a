import DeskShell.Proofs.Expression.Boundaries
import DeskShell.Proofs.Expression.Owners
import DeskShell.Proofs.Expression.Positions

/-!
# Parentheses around a number

In a text that is put together by the rules of expressions, a number may be put in parentheses. The
machine makes a difference only where the number is marked by a factorial and has the sign of an
operand in front of it (`reversePolish_parenthesised`). The text makes none for the tokens, but the
parentheses move what stands behind them, and a lexical fault with it (`Fault.moved`).
-/

set_option autoImplicit false

namespace DeskShell.Expression

open Text

/-! ## Well-formed texts -/

/-- Whether a lexeme is a number: a numeral with digits, or the constant `pi`. -/
def Lexeme.IsNumber : Lexeme → Prop
  | numeral n => n.hasDigits = true
  | word letters => lower (String.ofList letters) = "pi"
  | mark _ => False

theorem Lexeme.meaning_of_isNumber {l : Lexeme} (h : l.IsNumber) :
    (∃ v, ∀ b p, l.meaning b p = .ok (some (.number v))) ∨
      ∀ b p, l.meaning b p = .error (.numberOutOfRange p) := by
  cases l with
  | numeral n =>
      have hdigits : n.hasDigits = true := h
      by_cases hfinite : n.value.isFinite = true
      · exact .inl ⟨n.value, fun b p => by simp [meaning, hdigits, hfinite]⟩
      · exact .inr fun b p => by simp [meaning, hdigits, hfinite]
  | word letters =>
      have hword : lower (String.ofList letters) = "pi" := h
      exact .inl ⟨pi, fun b p => by simp [meaning, hword, wordToken?]⟩
  | mark c => cases h

/-- The lexemes of an expression that is put together from numbers. -/
inductive WellFormed : List Lexeme → Prop
  | number {l : Lexeme} (h : l.IsNumber) : WellFormed [l]
  | binary {first second : List Lexeme} (op : Operator) (hfirst : WellFormed first)
      (hsecond : WellFormed second) : WellFormed (first ++ .mark op.symbol :: second)
  | group {content : List Lexeme} (h : WellFormed content) :
      WellFormed (.mark '(' :: (content ++ [.mark ')']))
  | neg {operand : List Lexeme} (h : WellFormed operand) : WellFormed (.mark '-' :: operand)
  | call {letters : List Char} {argument : List Lexeme} (f : Function)
      (hname : lower (String.ofList letters) = f.name) (h : WellFormed argument) :
      WellFormed (.word letters :: .mark '(' :: (argument ++ [.mark ')']))
  | factorial {operand : List Lexeme} (h : WellFormed operand) :
      WellFormed (operand ++ [.mark '!'])

theorem read?_group {content : List Lexeme} {b : Bool} {tokens : List Token}
    (h : read? b (.mark '(' :: (content ++ [.mark ')'])) = some tokens) :
    ∃ inner, read? false content = some inner ∧ tokens = .opening :: (inner ++ [.closing]) := by
  have hmeaning (b : Bool) : (Lexeme.mark ')').meaning b 0 = .ok (some .closing) := rfl
  rw [read?_cons_of_meaning rfl, read?_append] at h
  obtain ⟨rest, hrest, rfl⟩ := Option.map_eq_some_iff.1 h
  obtain ⟨inner, hinner, hclosing⟩ := Option.bind_eq_some_iff.1 hrest
  rw [read?_cons_of_meaning (hmeaning _)] at hclosing
  exact ⟨inner, hinner, by simpa [read?, eq_comm] using hclosing⟩

/-- Tokens that end with an operand, and between which no operator is missing. -/
structure IsOperand (tokens : List Token) : Prop where
  separate : missingOperators false tokens = 0
  ends : Token.lastEndsOperand false tokens = true

section Operands

variable {first second : List Token}

theorem isOperand_number (v : Float) : IsOperand [.number v] := ⟨rfl, rfl⟩

theorem IsOperand.binary (hfirst : IsOperand first) (op : Operator) (hsecond : IsOperand second) :
    IsOperand (first ++ .operator op :: second) where
  separate := by
    rw [missingOperators_append, hfirst.separate, hfirst.ends]
    exact (Nat.zero_add _).trans ((Nat.zero_add _).trans hsecond.separate)
  ends := by
    rw [Token.lastEndsOperand_append, Token.lastEndsOperand_cons]
    exact hsecond.ends

theorem IsOperand.cons {t : Token} (ht : t.endsOperand = false) (h : IsOperand first) :
    IsOperand (t :: first) where
  separate := by
    rw [missingOperators, ht, h.separate]
    rfl
  ends := by rw [Token.lastEndsOperand_cons, ht, h.ends]

theorem IsOperand.concat {t : Token} (hstarts : t.startsOperand = false)
    (hends : t.endsOperand = true) (h : IsOperand first) : IsOperand (first ++ [t]) where
  separate := by
    rw [missingOperators_append, h.separate, missingOperators, hstarts, Bool.and_false]
    rfl
  ends := by
    rw [Token.lastEndsOperand_append, Token.lastEndsOperand_cons, hends]
    rfl

end Operands

/-- **In a well-formed text no operator is missing**, and it ends with an operand. -/
theorem WellFormed.isOperand {lexemes : List Lexeme} {tokens : List Token}
    (h : WellFormed lexemes) (hread : read? false lexemes = some tokens) : IsOperand tokens := by
  induction h generalizing tokens with
  | @number l h =>
      rcases Lexeme.meaning_of_isNumber h with ⟨v, hmeaning⟩ | hmeaning
      · rw [read?_cons_of_meaning (hmeaning _ _)] at hread
        cases hread
        exact isOperand_number v
      · rw [read?, hmeaning] at hread
        cases hread
  | @binary first second op hfirst hsecond ihfirst ihsecond =>
      rw [read?_append] at hread
      obtain ⟨left, hleft, hrest⟩ := Option.bind_eq_some_iff.1 hread
      rw [(ihfirst hleft).ends, read?_cons_of_meaning (Lexeme.meaning_symbol op 0)] at hrest
      obtain ⟨rest, hbehind, rfl⟩ := Option.map_eq_some_iff.1 hrest
      obtain ⟨right, hright, rfl⟩ := Option.map_eq_some_iff.1 hbehind
      exact (ihfirst hleft).binary op (ihsecond hright)
  | @group content h ih =>
      obtain ⟨inner, hinner, rfl⟩ := read?_group hread
      exact ((ih hinner).concat rfl rfl).cons rfl
  | @neg operand h ih =>
      rw [read?_cons_of_meaning Lexeme.meaning_minus] at hread
      obtain ⟨inner, hinner, rfl⟩ := Option.map_eq_some_iff.1 hread
      exact (ih hinner).cons rfl
  | @call letters argument f hname h ih =>
      rw [read?_cons_of_meaning (Lexeme.meaning_name hname _ _)] at hread
      obtain ⟨rest, hrest, rfl⟩ := Option.map_eq_some_iff.1 hread
      obtain ⟨inner, hinner, rfl⟩ := read?_group hrest
      exact (((ih hinner).concat rfl rfl).cons rfl).cons rfl
  | @factorial operand h ih =>
      have hmeaning (b : Bool) : (Lexeme.mark '!').meaning b 0 = .ok (some .factorial) := rfl
      rw [read?_append] at hread
      obtain ⟨inner, hinner, hrest⟩ := Option.bind_eq_some_iff.1 hread
      rw [read?_cons_of_meaning (hmeaning _)] at hrest
      have htokens : tokens = inner ++ [.factorial] := by simpa [read?, eq_comm] using hrest
      rw [htokens]
      exact (ih hinner).concat rfl rfl

/-! ## Texts -/

/-- Where a lexeme of a text stands when the number at the byte offset `start` has been put in
parentheses. -/
def pastParentheses (start position : Nat) : Nat :=
  if position < start then position else if position = start then start + 1 else position + 2

section Texts

variable {before after : List Char} {l : Lexeme}

theorem Lexeme.scan_parenthesised
    (h : (byteCount before, l) ∈ scan 0 (before ++ (l.text ++ after))) :
    scan 0 (before ++ '(' :: (l.text ++ ')' :: after)) = scan 0 before
      ++ (byteCount before, .mark '(') :: (byteCount before + 1, l)
        :: (byteCount before + 1 + l.size, .mark ')')
        :: scan (byteCount before + l.size + 2) after := by
  obtain ⟨-, -, halone⟩ := scan_of_mem_scan h
  have hposition : byteCount before + 1 + l.size + 1 = byteCount before + l.size + 2 := by omega
  rw [scan_append_cons (by decide), Nat.zero_add, scan_mark (by decide),
    scan_append_cons (by decide), scan_mark (by decide), halone, ← hposition]
  rfl

/-- The other lexemes of the text are the same, only moved. -/
theorem Lexeme.scan_moved (h : (byteCount before, l) ∈ scan 0 (before ++ (l.text ++ after))) :
    (scan 0 (before ++ (l.text ++ after))).map
        (fun x => (pastParentheses (byteCount before) x.1, x.2))
      = scan 0 before ++ (byteCount before + 1, l)
        :: scan (byteCount before + l.size + 2) after := by
  obtain ⟨hscan, hspelled, -⟩ := scan_of_mem_scan h
  have hbefore : (scan 0 before).map (fun x => (pastParentheses (byteCount before) x.1, x.2))
      = scan 0 before := by
    refine (List.map_congr_left fun x hx => ?_).trans (List.map_id _)
    have hx' := lt_of_mem_scan hx
    rw [Nat.zero_add] at hx'
    simp [pastParentheses, hx']
  have hafter : (scan (byteCount before + l.size) after).map
      (fun x => (pastParentheses (byteCount before) x.1, x.2))
      = scan (byteCount before + l.size + 2) after := by
    rw [scan_add _ 2]
    refine List.map_congr_left fun x hx => ?_
    have hle := le_of_mem_scan hx
    have hpos : 0 < l.size := byteCount_pos hspelled
    have hstart : ¬ x.1 < byteCount before ∧ ¬ x.1 = byteCount before := by omega
    simp [pastParentheses, hstart.1, hstart.2]
  have hnumber : pastParentheses (byteCount before) (byteCount before) = byteCount before + 1 := by
    simp [pastParentheses]
  rw [hscan, List.map_append, List.map_cons, hbefore, hafter, hnumber]

/-- A number in parentheses is refused as the number is, and otherwise has two tokens more. -/
theorem tokensOf_parenthesised (hl : l.IsNumber) {b : Bool} {p q r room : Nat}
    {rest : List (Nat × Lexeme)}
    (h : tokensOf b room ((p, .mark '(') :: (q, l) :: (r, .mark ')') :: rest)
      ≠ .error .tooLong) :
    (∃ fault, tokensOf b room ((q, l) :: rest) = .error fault ∧
      tokensOf b room ((p, .mark '(') :: (q, l) :: (r, .mark ')') :: rest) = .error fault) ∨
    ∃ v tokens, read? true (rest.map (·.2)) = some tokens ∧
      tokensOf b room ((q, l) :: rest) = .ok (.number v :: tokens) ∧
      tokensOf b room ((p, .mark '(') :: (q, l) :: (r, .mark ')') :: rest)
        = .ok (.opening :: .number v :: .closing :: tokens) := by
  have hopening : (Lexeme.mark '(').meaning b p = .ok (some .opening) := rfl
  have hclosing : (Lexeme.mark ')').meaning true r = .ok (some .closing) := rfl
  obtain ⟨room, rfl, hgroup⟩ := exists_room hopening h
  rw [tokensOf_cons_of_meaning hopening]
  rcases Lexeme.meaning_of_isNumber hl with ⟨v, hmeaning⟩ | hmeaning
  · obtain ⟨room, rfl, hbehind⟩ := exists_room (hmeaning false q) hgroup
    obtain ⟨room, rfl, hroom⟩ := exists_room hclosing hbehind
    have hnumber : (Token.number v).endsOperand = true := rfl
    -- without the parentheses there is more room than is needed
    have hsame : tokensOf true (room + 2) rest = tokensOf true room rest :=
      tokensOf_of_le hroom (Nat.le_add_right room 2)
    rw [tokensOf_cons_of_meaning (hmeaning b q), tokensOf_cons_of_meaning (hmeaning _ q), hnumber,
      hsame, tokensOf_cons_of_meaning hclosing]
    cases hrest : tokensOf true room rest with
    | error fault =>
        refine .inl ⟨fault, rfl, ?_⟩
        rw [show Token.closing.endsOperand = true from rfl, hrest]
        rfl
    | ok tokens =>
        refine .inr ⟨v, tokens, (read?_of_tokensOf hrest).1, rfl, ?_⟩
        rw [show Token.closing.endsOperand = true from rfl, hrest]
        rfl
  · refine .inl ⟨.numberOutOfRange q, by rw [tokensOf, hmeaning], ?_⟩
    rw [tokensOf, hmeaning]
    rfl

theorem tokensOf_append_parenthesised (hl : l.IsNumber) {p q r room : Nat}
    {lexemes rest : List (Nat × Lexeme)}
    (h : tokensOf false room (lexemes ++ (p, .mark '(') :: (q, l) :: (r, .mark ')') :: rest)
      ≠ .error .tooLong) :
    (∃ fault, tokensOf false room (lexemes ++ (q, l) :: rest) = .error fault ∧
      tokensOf false room (lexemes ++ (p, .mark '(') :: (q, l) :: (r, .mark ')') :: rest)
        = .error fault) ∨
    ∃ first v second, tokensOf false room lexemes = .ok first ∧
      read? true (rest.map (·.2)) = some second ∧
      tokensOf false room (lexemes ++ (q, l) :: rest) = .ok (first ++ .number v :: second) ∧
      tokensOf false room (lexemes ++ (p, .mark '(') :: (q, l) :: (r, .mark ')') :: rest)
        = .ok (first ++ .opening :: .number v :: .closing :: second) := by
  rw [tokensOf_append] at h
  rw [tokensOf_append, tokensOf_append]
  cases hfirst : tokensOf false room lexemes with
  | error fault => exact .inl ⟨fault, rfl, rfl⟩
  | ok first =>
      rw [hfirst] at h
      have hrest : tokensOf (Token.lastEndsOperand false first) (room - first.length)
          ((p, .mark '(') :: (q, l) :: (r, .mark ')') :: rest) ≠ .error .tooLong := by
        intro heq
        refine h ?_
        show Except.map _ _ = _
        rw [heq]
        rfl
      show (∃ fault, Except.map _ _ = _ ∧ Except.map _ _ = _) ∨
        ∃ tokens v second, _ ∧ _ ∧ Except.map _ _ = _ ∧ Except.map _ _ = _
      rcases tokensOf_parenthesised hl hrest with ⟨fault, hshort, hlong⟩ |
        ⟨v, second, hread, hshort, hlong⟩
      · rw [hshort, hlong]
        exact .inl ⟨fault, rfl, rfl⟩
      · rw [hshort, hlong]
        exact .inr ⟨first, v, second, rfl, hread, rfl, rfl⟩

end Texts

/-! ## Marks -/

/-- Behind an operand every lexeme that means something stands for a token. -/
theorem Lexeme.meaning_ne_none (l : Lexeme) (position : Nat) :
    l.meaning true position ≠ .ok none := by
  intro h
  rcases Lexeme.cases_of_meaning h with ⟨n, -, hnone⟩ | ⟨letters, t, -, hnone, -⟩ | ⟨c, -, hmark⟩
  · cases hnone
  · cases hnone
  · unfold markToken? at hmark
    split at hmark <;> cases hmark

theorem Lexeme.eq_of_meaning_factorial {l : Lexeme} {b : Bool} {position : Nat}
    (h : l.meaning b position = .ok (some .factorial)) : l = .mark '!' := by
  rcases Lexeme.cases_of_meaning h with ⟨n, -, hnumber⟩ | ⟨letters, t, -, ht, hword⟩ |
    ⟨c, rfl, hmark⟩
  · cases hnumber
  · obtain rfl := Option.some.inj ht
    unfold wordToken? at hword
    split at hword
    · cases hword
    · obtain ⟨f, -, hf⟩ := Option.map_eq_some_iff.1 hword
      cases hf
  · unfold markToken? at hmark
    split at hmark <;> first | rfl | cases hmark | (cases b <;> cases hmark)

/-- Only a mark that is read as a factorial starts the tokens behind an operand with one. -/
theorem head?_of_read?_factorial {lexemes : List Lexeme} {tokens : List Token}
    (h : read? true lexemes = some tokens) (hhead : tokens.head? = some .factorial) :
    lexemes.head? = some (.mark '!') := by
  cases lexemes with
  | nil =>
      cases h
      cases hhead
  | cons l rest =>
      rw [read?] at h
      split at h
      · cases h
      · next hmeaning => exact absurd hmeaning (l.meaning_ne_none 0)
      · next token hmeaning =>
          obtain ⟨more, -, rfl⟩ := Option.map_eq_some_iff.1 h
          obtain rfl : token = .factorial := Option.some.inj hhead
          rw [Lexeme.eq_of_meaning_factorial hmeaning, List.head?_cons]

/-! ## The text and its value -/

/-- **A text with a number in parentheses** has the tokens of the text without them, and the two
parentheses besides; or it is refused for the same reason, where that lexeme now stands. -/
theorem tokenize_parenthesised {before number after : String} {l : Lexeme} (hl : l.IsNumber)
    (htext : l.text = number.toList)
    (hmem : (byteCount before.toList, l) ∈ Lexeme.scan 0 (before ++ number ++ after).toList)
    (hfits : Fits (before ++ "(" ++ number ++ ")" ++ after)) :
    (∃ fault, tokenize (before ++ number ++ after) = .error fault ∧
      tokenize (before ++ "(" ++ number ++ ")" ++ after)
        = .error (fault.moved (pastParentheses (byteCount before.toList)))) ∨
    ∃ first v second, tokenize before = .ok first ∧
      read? true (Lexeme.cut after.toList) = some second ∧
      tokenize (before ++ number ++ after) = .ok (first ++ .number v :: second) ∧
      tokenize (before ++ "(" ++ number ++ ")" ++ after)
        = .ok (first ++ .opening :: .number v :: .closing :: second) := by
  have hshort : (before ++ number ++ after).toList
      = before.toList ++ (l.text ++ after.toList) := by simp [htext]
  have hlong : (before ++ "(" ++ number ++ ")" ++ after).toList
      = before.toList ++ '(' :: (l.text ++ ')' :: after.toList) := by simp [htext]
  rw [hshort] at hmem
  -- the shorter text, with its lexemes where they stand in the longer one
  have hmoved : tokensOf false maxTokens _
      = (tokenize (before ++ number ++ after)).mapError
        (Fault.moved (pastParentheses (byteCount before.toList))) :=
    tokensOf_moved (pastParentheses (byteCount before.toList)) false maxTokens _
  rw [hshort, Lexeme.scan_moved hmem] at hmoved
  have hlonger : tokenize (before ++ "(" ++ number ++ ")" ++ after)
      = tokensOf false maxTokens _ := rfl
  rw [hlong, Lexeme.scan_parenthesised hmem] at hlonger
  rw [hlonger]
  rw [Fits, hlonger] at hfits
  rcases tokensOf_append_parenthesised hl hfits with ⟨fault, hfault, hfault'⟩ |
    ⟨first, v, second, hfirst, hread, hok, hok'⟩
  · obtain ⟨own, hown, rfl⟩ := mapError_eq_error (hmoved.symm.trans hfault)
    exact .inl ⟨own, hown, hfault'⟩
  · rw [Lexeme.scan_map_snd] at hread
    exact .inr ⟨first, v, second, hfirst, hread, mapError_eq_ok (hmoved.symm.trans hok), hok'⟩

/-- Where no operator is missing, a number stands neither behind nor in front of an operand. -/
theorem separate_of_number {first second : List Token} {v : Float}
    (h : missingOperators false (first ++ .number v :: second) = 0) :
    Token.lastEndsOperand false first = false ∧ ∀ t ∈ second.head?, t.startsOperand = false := by
  constructor
  · rcases first.eq_nil_or_concat' with rfl | ⟨part, x, rfl⟩
    · rfl
    · have hpair : [x, .number v] <:+: part ++ [x] ++ .number v :: second :=
        ⟨part, second, by simp⟩
      by_contra hends
      have hstarts := startsOperand_of_missingOperators h hpair
        (by simpa [Token.lastEndsOperand] using hends)
      cases hstarts
  · intro t ht
    obtain ⟨rest, rfl⟩ := List.head?_eq_some_iff.1 ht
    have hpair : [.number v, t] <:+: first ++ .number v :: t :: rest := ⟨first, rest, by simp⟩
    exact startsOperand_of_missingOperators h hpair rfl

/-- **Parentheses around a number change nothing** in a well-formed text, neither its value nor its
fault, but for the place where a lexeme is at fault; with one exception: the number may not be
marked by a factorial and have the sign of an operand in front of it, since such a sign takes the
number with its factorial, but the parentheses without it. -/
theorem evaluate_parenthesised (before number after : String) (l : Lexeme)
    (hwell : WellFormed (Lexeme.cut (before ++ number ++ after).toList)) (hl : l.IsNumber)
    (htext : l.text = number.toList)
    (hmem : (byteCount before.toList, l) ∈ Lexeme.scan 0 (before ++ number ++ after).toList)
    (hfits : Fits (before ++ "(" ++ number ++ ")" ++ after))
    (hsign : ∀ emitted, tokenize before = .ok emitted → EndsInOperandSign emitted →
      (Lexeme.cut after.toList).head? ≠ some (.mark '!')) :
    evaluate (before ++ "(" ++ number ++ ")" ++ after)
      = (evaluate (before ++ number ++ after)).mapError
        (Fault.moved (pastParentheses (byteCount before.toList))) := by
  rcases tokenize_parenthesised hl htext hmem hfits with ⟨fault, hshort, hlong⟩ |
    ⟨first, v, second, hfirst, hread, hshort, hlong⟩
  · rw [evaluate, evaluate, compile, compile, hshort, hlong]
    rfl
  · have hoperand := hwell.isOperand (tokenize_eq_ok_iff.1 hshort).1
    obtain ⟨hfirst', hsecond⟩ := separate_of_number hoperand.separate
    have hlength := length_le_of_tokenize hlong
    simp only [List.length_append, List.length_cons] at hlength
    have hpolish := reversePolish_parenthesised (v := v) hfirst' hsecond
      (fun hends hmark => hsign first hfirst hends (head?_of_read?_factorial hread hmark))
      (by omega)
    rw [evaluate, evaluate, compile_of_tokenize hlong, compile_of_tokenize hshort, hpolish]
    show (reversePolish _).bind evaluatePolish = ((reversePolish _).bind evaluatePolish).mapError _
    cases hvalue : (reversePolish (first ++ .number v :: second)).bind evaluatePolish with
    | ok value => rfl
    | error fault =>
        exact congrArg Except.error (Fault.moved_of_phase (phase_of_evaluation hvalue)).symm

/-- A number behind the sign of an operand, and one in front of a numeral that is out of range. -/
theorem evaluate_parenthesised_signed :
    evaluate "2*-(3)+1" = .ok (-5) ∧
      evaluate "(1)+1e999" = .error (.numberOutOfRange 4) := by
  have hnumeral (n : Numeral) (h : n.hasDigits = true) : WellFormed [.numeral n] := .number h
  constructor
  · have hcut : Lexeme.cut "2*-3+1".toList = [.numeral ⟨['2'], none, none⟩, .mark '*', .mark '-',
        .numeral ⟨['3'], none, none⟩, .mark '+', .numeral ⟨['1'], none, none⟩] := by
      decide +kernel
    have hwell : WellFormed (Lexeme.cut "2*-3+1".toList) := by
      rw [hcut]
      exact .binary .add (.binary .mul (hnumeral _ rfl) (.neg (hnumeral _ rfl)))
        (hnumeral ⟨['1'], none, none⟩ rfl)
    have hvalue : evaluate "2*-3+1" = .ok (-5) := by decide +kernel
    have hsame := evaluate_parenthesised "2*-" "3" "+1" (.numeral ⟨['3'], none, none⟩) hwell rfl rfl
      (by decide +kernel) (fits_of_length_le (by decide)) (fun _ _ _ => by decide +kernel)
    have hshort : "2*-" ++ "3" ++ "+1" = "2*-3+1" := by decide
    rw [hshort, hvalue] at hsame
    exact hsame
  · have hcut : Lexeme.cut "1+1e999".toList = [.numeral ⟨['1'], none, none⟩, .mark '+',
        .numeral ⟨['1'], none, some ⟨'e', none, ['9', '9', '9']⟩⟩] := by
      decide +kernel
    have hwell : WellFormed (Lexeme.cut "1+1e999".toList) := by
      rw [hcut]
      exact .binary .add (hnumeral ⟨['1'], none, none⟩ rfl) (hnumeral _ rfl)
    have hfault : evaluate "1+1e999" = .error (.numberOutOfRange 2) := by decide +kernel
    have hsame := evaluate_parenthesised "" "1" "+1e999" (.numeral ⟨['1'], none, none⟩) hwell rfl
      rfl (by decide +kernel) (fits_of_length_le (by decide)) (fun _ _ _ => by decide +kernel)
    have hshort : "" ++ "1" ++ "+1e999" = "1+1e999" := by decide
    rw [hshort, hfault] at hsame
    exact hsame

/-- **What parentheses change.** The sign behind an operator takes a number with its factorial, but
parentheses without it, and then the operand of the factorial is negative; and where a numeral is
out of range, it is so at another place. -/
theorem evaluate_parenthesised_factorial :
    (WellFormed (Lexeme.cut "2*-3!".toList) ∧ evaluate "2*-3!" = .ok (-12) ∧
      Fits "2*-(3)!" ∧ evaluate "2*-(3)!" = .error .factorialDomain) ∧
    (WellFormed (Lexeme.cut "1+1e999".toList) ∧
      evaluate "1+1e999" = .error (.numberOutOfRange 2) ∧
      Fits "(1)+1e999" ∧ evaluate "(1)+1e999" = .error (.numberOutOfRange 4)) := by
  have hnumeral (n : Numeral) (h : n.hasDigits = true) : WellFormed [.numeral n] := .number h
  have hmarked : Lexeme.cut "2*-3!".toList = [.numeral ⟨['2'], none, none⟩, .mark '*', .mark '-',
      .numeral ⟨['3'], none, none⟩, .mark '!'] := by decide +kernel
  have hsum : Lexeme.cut "1+1e999".toList = [.numeral ⟨['1'], none, none⟩, .mark '+',
      .numeral ⟨['1'], none, some ⟨'e', none, ['9', '9', '9']⟩⟩] := by decide +kernel
  rw [hmarked, hsum]
  exact ⟨⟨.binary .mul (hnumeral _ rfl) (.neg (.factorial (hnumeral _ rfl))), by decide +kernel,
      fits_of_length_le (by decide), by decide +kernel⟩,
    .binary .add (hnumeral ⟨['1'], none, none⟩ rfl) (hnumeral _ rfl), by decide +kernel,
      fits_of_length_le (by decide), by decide +kernel⟩

end DeskShell.Expression
