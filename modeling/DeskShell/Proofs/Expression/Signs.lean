import DeskShell.Proofs.Expression.Owners

/-!
# Signs of an expression

What a `-` means is decided twice. Reading makes it an operator where an operand has just ended, and
a sign everywhere else; the machine holds a sign as that of an operand or as that of a group, and
goes by a flag of its own. Both go by the tokens alone: reading by the last of them
(`stands_of_read?`), and the machine by the last that is no sign (`afterOperator_of_feedAll`). So a
run of signs is of one kind, and is one of operands exactly behind a binary operator
(`signs_classified`).
-/

set_option autoImplicit false

namespace DeskShell.Expression

open Arranger

/-! ## Reading -/

/-- What holds of a token where it stands: numbers are finite, and `+` and `-` are operators exactly
where an operand has just ended. -/
def Token.Stands (afterOperand : Bool) : Token → Prop
  | number v => v.isFinite = true
  | operator op => op = .add ∨ op = .sub → afterOperand = true
  | neg => afterOperand = false
  | factorial | function _ | opening | closing => True

theorem isFinite_pi : pi.isFinite = true := by
  decide +kernel

theorem stands_of_wordToken? {word : String} {t : Token} (h : wordToken? word = some t)
    (afterOperand : Bool) : t.Stands afterOperand := by
  unfold wordToken? at h
  split at h
  · cases h
    exact isFinite_pi
  · obtain ⟨f, -, rfl⟩ := Option.map_eq_some_iff.1 h
    trivial

theorem stands_of_markToken? {c : Char} {afterOperand : Bool} {t : Token}
    (h : markToken? afterOperand c = some (some t)) : t.Stands afterOperand := by
  unfold markToken? at h
  split at h <;> cases afterOperand <;> cases h <;> simp [Token.Stands]

theorem Lexeme.stands_of_meaning {l : Lexeme} {afterOperand : Bool} {position : Nat} {t : Token}
    (h : l.meaning afterOperand position = .ok (some t)) : t.Stands afterOperand := by
  cases l with
  | numeral n =>
      simp only [meaning] at h
      split at h
      · cases h
      · split at h
        · next hfinite =>
            cases h
            exact hfinite
        · cases h
  | word letters =>
      simp only [meaning] at h
      split at h
      · next token hword =>
          cases h
          exact stands_of_wordToken? hword afterOperand
      · cases h
  | mark c =>
      simp only [meaning] at h
      split at h
      · next token hmark =>
          cases h
          exact stands_of_markToken? hmark
      · cases h

/-- **Every token stands where it may**, as the tokens in front of it tell. -/
theorem stands_of_read? {afterOperand : Bool} {lexemes : List Lexeme} {tokens : List Token}
    (h : read? afterOperand lexemes = some tokens) {before after : List Token} {t : Token}
    (hsplit : tokens = before ++ t :: after) :
    t.Stands (Token.lastEndsOperand afterOperand before) := by
  fun_induction read? afterOperand lexemes generalizing tokens before with
  | case1 =>
      cases h
      cases before <;> cases hsplit
  | case2 => cases h
  | case3 afterOperand lexeme rest hmeaning ih => exact ih h hsplit
  | case4 afterOperand lexeme rest token hmeaning ih =>
      obtain ⟨more, hmore, rfl⟩ := Option.map_eq_some_iff.1 h
      cases before with
      | nil =>
          cases hsplit
          exact Lexeme.stands_of_meaning hmeaning
      | cons first before =>
          obtain ⟨rfl, hrest⟩ := List.cons.inj hsplit
          rw [Token.lastEndsOperand_cons]
          exact ih hmore hrest

/-- A lexeme is the mark `-` exactly if it stands for a sign or a subtraction. -/
theorem Lexeme.count_of_meaning {l : Lexeme} {afterOperand : Bool} {position : Nat}
    {t : Option Token} (h : l.meaning afterOperand position = .ok t) :
    [l].count (.mark '-') = t.toList.count .neg + t.toList.count (.operator .sub) := by
  rcases cases_of_meaning h with ⟨n, rfl, rfl⟩ | ⟨letters, token, rfl, rfl, hword⟩ | ⟨c, rfl, hmark⟩
  · simp
  · unfold wordToken? at hword
    split at hword
    · cases hword
      simp
    · obtain ⟨f, -, rfl⟩ := Option.map_eq_some_iff.1 hword
      simp
  · unfold markToken? at hmark
    split at hmark <;> cases afterOperand <;> cases hmark <;> simp

/-- **Every minus of a text means something**: it is a sign or a subtraction, and there are no
others. -/
theorem count_of_read? {afterOperand : Bool} {lexemes : List Lexeme} {tokens : List Token}
    (h : read? afterOperand lexemes = some tokens) :
    lexemes.count (.mark '-') = tokens.count .neg + tokens.count (.operator .sub) := by
  fun_induction read? afterOperand lexemes generalizing tokens with
  | case1 =>
      cases h
      rfl
  | case2 => cases h
  | case3 afterOperand lexeme rest hmeaning ih =>
      have hfirst := Lexeme.count_of_meaning hmeaning
      simp only [Option.toList_none, List.count_cons, List.count_nil] at hfirst ⊢
      rw [ih h]
      omega
  | case4 afterOperand lexeme rest token hmeaning ih =>
      obtain ⟨more, hmore, rfl⟩ := Option.map_eq_some_iff.1 h
      have hfirst := Lexeme.count_of_meaning hmeaning
      simp only [Option.toList_some, List.count_cons, List.count_nil] at hfirst ⊢
      rw [ih hmore]
      omega

/-- What stands in front of a place where an operand has just ended. -/
theorem exists_of_lastEndsOperand {tokens : List Token}
    (h : Token.lastEndsOperand false tokens = true) :
    ∃ t, tokens.getLast? = some t ∧ ((∃ v, t = .number v) ∨ t = .closing ∨ t = .factorial) := by
  cases hlast : tokens.getLast? with
  | none => simp [Token.lastEndsOperand, hlast] at h
  | some t =>
      have ht : t.endsOperand = true := by simpa [Token.lastEndsOperand, hlast] using h
      refine ⟨t, rfl, ?_⟩
      cases t <;> simp [Token.endsOperand] at ht ⊢

/-- What stands in front of any other place. -/
theorem eq_nil_or_exists_of_lastEndsOperand {tokens : List Token}
    (h : Token.lastEndsOperand false tokens = false) :
    tokens = [] ∨ ∃ t, tokens.getLast? = some t ∧
      ((∃ op, t = .operator op) ∨ t = .opening ∨ (∃ f, t = .function f) ∨ t = .neg) := by
  cases hlast : tokens.getLast? with
  | none => exact .inl (List.getLast?_eq_none_iff.1 hlast)
  | some t =>
      have ht : t.endsOperand = false := by simpa [Token.lastEndsOperand, hlast] using h
      refine .inr ⟨t, rfl, ?_⟩
      cases t <;> simp [Token.endsOperand] at ht ⊢

/-! ## The flag of the machine -/

namespace Arranger

section Flag

variable {s s' : Arranger}

/-- A token that is no sign sets the flag if it is a binary operator, and clears it otherwise. -/
theorem afterOperator_of_feed {t : Token} (h : s.feed t = .ok s') (hne : t ≠ .neg) :
    s'.afterOperator = t.isOperator := by
  cases hflag : s'.afterOperator with
  | true =>
      rcases token_of_afterOperator h hflag with ⟨op, rfl⟩ | ⟨rfl, -⟩
      · rfl
      · exact absurd rfl hne
  | false =>
      cases t with
      | operator op =>
          obtain ⟨r, hrelease, hhold⟩ := bind_eq_ok h
          obtain rfl := eq_of_emit hrelease
          obtain rfl := eq_of_hold hhold
          cases hflag
      | number v | factorial | function f | neg | opening | closing => rfl

theorem afterOperator_neg (h : s.feed .neg = .ok s') : s'.afterOperator = s.afterOperator := by
  simp only [feed] at h
  split at h
  · next hflag =>
      obtain rfl := eq_of_hold h
      exact hflag.symm
  · next hflag =>
      obtain rfl := eq_of_hold h
      exact (Bool.eq_false_iff.2 hflag).symm

theorem afterOperator_signs {k : Nat} (h : s.feedAll (List.replicate k .neg) = .ok s') :
    s'.afterOperator = s.afterOperator := by
  induction k generalizing s with
  | zero =>
      cases h
      rfl
  | succ k ih =>
      rw [List.replicate_succ, feedAll_cons] at h
      obtain ⟨r, hfeed, hrest⟩ := bind_eq_ok h
      calc s'.afterOperator = r.afterOperator := ih hrest
        _ = s.afterOperator := afterOperator_neg hfeed

/-- **The flag tells whether a run of signs is behind a binary operator**; the run may be empty. -/
theorem afterOperator_of_feedAll {front : List Token} {k : Nat}
    (h : feedAll {} (front ++ List.replicate k .neg) = .ok s)
    (hfront : front.getLast? ≠ some .neg) :
    s.afterOperator = front.getLast?.any Token.isOperator := by
  rw [feedAll_append] at h
  obtain ⟨r, hrun, hsigns⟩ := bind_eq_ok h
  rw [afterOperator_signs hsigns]
  rcases front.eq_nil_or_concat' with rfl | ⟨init, t, rfl⟩
  · cases hrun
    rfl
  · rw [List.getLast?_concat] at hfront ⊢
    rw [feedAll_append] at hrun
    obtain ⟨q, -, hlast⟩ := bind_eq_ok hrun
    rw [feedAll_singleton] at hlast
    exact afterOperator_of_feed hlast fun heq => hfront (congrArg some heq)

/-- Where an operand has just ended, the machine waits for none. -/
theorem afterOperator_of_lastEndsOperand {tokens : List Token} (h : feedAll {} tokens = .ok s)
    (hends : Token.lastEndsOperand false tokens = true) : s.afterOperator = false := by
  rw [← Bool.not_eq_true]
  intro hflag
  obtain ⟨before, op, k, rfl⟩ := exists_of_afterOperator h hflag
  rw [Token.lastEndsOperand_append, Token.lastEndsOperand_cons] at hends
  cases k with
  | zero => cases hends
  | succ k => simp [Token.lastEndsOperand, List.replicate_succ', Token.endsOperand] at hends

end Flag

end Arranger

/-! ## Both together -/

/-- A sign is held as that of an operand if the run of signs it belongs to is directly behind a
binary operator, and else as that of a group. -/
theorem feed_neg_of_run {front : List Token} {k : Nat} {s : Arranger}
    (h : feedAll {} (front ++ List.replicate k .neg) = .ok s)
    (hfront : front.getLast? ≠ some .neg) (hlength : front.length + k < maxOutput) :
    s.feed .neg = .ok { s with held :=
      (if front.getLast?.any Token.isOperator then .operandSign else .groupSign) :: s.held } := by
  have hload : s.load < maxOutput := by
    have hgrows : s.load ≤ 0 + (front ++ List.replicate k Token.neg).length := load_feedAll h
    rw [List.length_append, List.length_replicate] at hgrows
    omega
  obtain ⟨output, held, flag⟩ := s
  obtain rfl : flag = front.getLast?.any Token.isOperator := afterOperator_of_feedAll h hfront
  cases hflag : front.getLast?.any Token.isOperator with
  | true => exact feed_operandSign rfl (by rwa [hflag] at hload)
  | false => exact feed_groupSign rfl (by rwa [hflag] at hload)

/-- **Signs are always of one kind.** What a text is read as has at most 128 tokens, and its numbers
are finite. Each `-` that is a mark of the text, and nothing else, is a sign or a subtraction. A `+`
or `-` that is an operator stands directly behind a number, a closing parenthesis or a factorial,
where the machine waits for no operand. A sign stands first, or directly behind an operator, an
opening parenthesis, a function or another sign; and the machine holds it as the sign of an operand
if the unbroken run of signs up to it stands directly behind an operator, and as that of a group
otherwise. -/
theorem signs_classified (source : String) (tokens : List Token)
    (h : tokenize source = .ok tokens) :
    tokens.length ≤ 128 ∧
    (∀ v : Float, .number v ∈ tokens → v.isFinite = true) ∧
    (Lexeme.cut source.toList).count (.mark '-')
      = tokens.count .neg + tokens.count (.operator .sub) ∧
    (∀ (before after : List Token) (op : Operator), tokens = before ++ .operator op :: after →
      op = .add ∨ op = .sub →
      (∃ t : Token, before.getLast? = some t ∧
        ((∃ v, t = .number v) ∨ t = .closing ∨ t = .factorial)) ∧
      ∀ s : Arranger, feedAll {} before = .ok s → s.afterOperator = false) ∧
    (∀ before after : List Token, tokens = before ++ .neg :: after →
      before = [] ∨ ∃ t : Token, before.getLast? = some t ∧
        ((∃ op, t = .operator op) ∨ t = .opening ∨ (∃ f, t = .function f) ∨ t = .neg)) ∧
    ∀ (front after : List Token) (k : Nat),
      tokens = front ++ List.replicate k .neg ++ .neg :: after → front.getLast? ≠ some .neg →
      ∀ s : Arranger, feedAll {} (front ++ List.replicate k .neg) = .ok s →
      s.feed .neg = .ok { s with held :=
        (if front.getLast?.any Token.isOperator then .operandSign else .groupSign)
          :: s.held } := by
  have hlength : tokens.length ≤ maxTokens := length_le_of_tokenize h
  have hstands : ∀ before t after, tokens = before ++ t :: after →
      -- all that decides where a token may stand is whether an operand ends before it
      t.Stands (Token.lastEndsOperand false before) :=
    fun before t after hsplit => stands_of_read? (tokenize_eq_ok_iff.1 h).1 hsplit
  refine ⟨hlength, ?_, count_of_read? (tokenize_eq_ok_iff.1 h).1, ?_, ?_, ?_⟩
  · intro v hv
    obtain ⟨before, after, hsplit⟩ := List.append_of_mem hv
    exact hstands before (.number v) after hsplit
  · intro before after op hsplit hop
    have hends : Token.lastEndsOperand false before = true :=
      hstands before (.operator op) after hsplit hop
    exact ⟨exists_of_lastEndsOperand hends,
      fun s hrun => afterOperator_of_lastEndsOperand hrun hends⟩
  · intro before after hsplit
    exact eq_nil_or_exists_of_lastEndsOperand (hstands before .neg after hsplit)
  · intro front after k hsplit hfront s hrun
    refine feed_neg_of_run hrun hfront ?_
    rw [hsplit, List.length_append, List.length_append, List.length_replicate,
      List.length_cons] at hlength
    exact Nat.lt_of_lt_of_le (by omega) hlength

/-- A sign at the start, two behind an operator, and a subtraction. -/
theorem signs_classified_of_product :
    let tokens : List Token :=
      [.neg, .number 2, .operator .mul, .neg, .neg, .number 3, .operator .sub, .number 1]
    let held : Arranger := ⟨[.number 2], [.operandSign, .operator .mul, .groupSign], true⟩
    tokenize "-2*--3-1" = .ok tokens ∧
      feedAll {} (tokens.take 4) = .ok held ∧
      feed {} .neg = .ok { held := [.groupSign] } ∧
      held.feed .neg = .ok { held with held := .operandSign :: held.held } ∧
      ∃ t, (tokens.take 6).getLast? = some t ∧
        ((∃ v, t = .number v) ∨ t = .closing ∨ t = .factorial) := by
  intro tokens held
  have htokens : tokenize "-2*--3-1" = .ok tokens := by decide +kernel
  have hheld : feedAll {} (tokens.take 4) = .ok held := by decide +kernel
  obtain ⟨-, -, -, hsub, -, hneg⟩ := signs_classified "-2*--3-1" tokens htokens
  exact ⟨htokens, hheld, hneg [] _ 0 rfl (by simp) {} rfl,
    hneg [.neg, .number 2, .operator .mul] _ 1 rfl (by simp) held hheld,
    (hsub (tokens.take 6) _ .sub rfl (.inr rfl)).1⟩

end DeskShell.Expression
