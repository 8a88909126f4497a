import DeskShell.Proofs.Expression.PostOrder

/-!
# Groups compile on their own

A text that compiles, put in parentheses or behind a sign, compiles to the same listing: the machine
runs on it as it does alone, only with other tokens in front of its output and other operators below
its stack (`Arranger.above`). That the run alone succeeds is what keeps the run from reaching below
its own part of the stack: the one step that would do so, a closing parenthesis without its opening,
is a fault.
-/

set_option autoImplicit false

namespace DeskShell.Expression

/-! ## Running above other operators -/

namespace Arranger

/-- The state with tokens in front of its output and held operators below its stack. -/
def above (s : Arranger) (output : List Token) (below : List Held) : Arranger :=
  ⟨output ++ s.output, s.held ++ below, s.afterOperator⟩

theorem load_above (s : Arranger) (output : List Token) (below : List Held) :
    (s.above output below).load = output.length + below.length + s.load := by
  simp only [load, above, List.length_append]
  omega

section Above

variable {s s' : Arranger} {output : List Token} {below : List Held}

theorem emit_above {tokens : List Token} (h : s.emit tokens = .ok s')
    (hload : (s'.above output below).load ≤ maxOutput) :
    (s.above output below).emit tokens = .ok (s'.above output below) := by
  obtain rfl := eq_of_emit h
  rw [emit_of_load]
  · simp [above]
  · simp only [load, above, List.length_append] at hload ⊢
    omega

theorem hold_above {held : Held} (h : s.hold held = .ok s')
    (hload : (s.above output below).load < maxOutput) :
    (s.above output below).hold held = .ok (s'.above output below) := by
  obtain rfl := eq_of_hold h
  rw [hold_of_load hload]
  simp [above]

/-- What is released alone is released above other operators, unless the release goes through the
whole stack and the topmost of them yields as well. -/
theorem release_above {p : Held → Bool} (h : s.release p = .ok s')
    (hbelow : s'.held = [] → ∀ x ∈ below.head?, p x = false)
    (hload : (s.above output below).load ≤ maxOutput) :
    (s.above output below).release p = .ok (s'.above output below) := by
  obtain rfl := eq_of_emit h
  have hheld : (s.above output below).held
      = s.held.takeWhile p ++ (s.held.dropWhile p ++ below) := by
    rw [← List.append_assoc, List.takeWhile_append_dropWhile]
    rfl
  have htop : ∀ x ∈ (s.held.dropWhile p ++ below).head?, p x = false := by
    cases hrest : s.held.dropWhile p with
    | nil => exact hbelow hrest
    | cons y rest =>
        intro x hx
        rw [List.cons_append, List.head?_cons, Option.mem_some_iff] at hx
        have hhead := List.head?_dropWhile_not p s.held
        simp only [hrest, List.head?_cons] at hhead
        exact hx ▸ hhead
  have htaken : ∀ x ∈ s.held.takeWhile p, p x = true :=
    List.all_eq_true.1 List.all_takeWhile
  rw [release_append hheld htaken htop hload]
  simp [above]

theorem releaseOwner_above (h : s.releaseOwner = .ok s')
    (hbelow : ∀ x ∈ below.head?, x.ownsGroup = false)
    (hload : (s.above output below).load ≤ maxOutput) :
    (s.above output below).releaseOwner = .ok (s'.above output below) := by
  cases hheld : s.held with
  | nil =>
      have hs : s' = s := by
        simp only [releaseOwner, hheld] at h
        cases h
        rfl
      subst hs
      exact releaseOwner_of_head (by simpa [above, hheld] using hbelow)
  | cons top rest =>
      have hload' := load_releaseOwner h
      simp only [releaseOwner, hheld] at h
      simp only [releaseOwner, above, hheld, List.cons_append]
      split at h
      · next howns =>
          rw [if_pos howns]
          refine emit_above h ?_
          rw [load_above] at hload ⊢
          omega
      · next howns =>
          cases h
          rw [if_neg howns]
          simp [hheld]

/-- A group that is closed alone has been opened alone. -/
theorem close_above (h : s.close = .ok s') (hbelow : ∀ x ∈ below.head?, x.ownsGroup = false)
    (hload : (s.above output below).load ≤ maxOutput) :
    (s.above output below).close = .ok (s'.above output below) := by
  obtain ⟨r, top, outer, hrelease, hheld, hrest⟩ := close_cases h
  have hsame := load_release hrelease
  rw [close, release_above hrelease (by simp [hheld]) hload]
  simp only [bind, Except.bind, above, hheld, List.cons_append]
  refine releaseOwner_above hrest hbelow ?_
  rw [load_above] at hload ⊢
  simp only [load, hheld, List.length_cons] at hsame hload ⊢
  omega

theorem release_hold_above {p : Held → Bool} {held : Held}
    (h : (s.release p).bind (fun r => r.hold held) = .ok s')
    (hbelow : ∀ x ∈ below.head?, p x = false) (hload : (s.above output below).load < maxOutput) :
    ((s.above output below).release p).bind (fun r => r.hold held)
      = .ok (s'.above output below) := by
  obtain ⟨r, hrelease, hhold⟩ := bind_eq_ok h
  have hsame := load_release hrelease
  rw [release_above hrelease (fun _ => hbelow) (Nat.le_of_lt hload)]
  refine hold_above hhold ?_
  rw [load_above] at hload ⊢
  omega

/-- **One token.** A step that succeeds alone is the same step above operators that wait for the
end of the group. -/
theorem feed_above {token : Token} (h : s.feed token = .ok s')
    (hbelow : ∀ x ∈ below.head?, x.Waits) (hload : (s.above output below).load < maxOutput) :
    (s.above output below).feed token = .ok (s'.above output below) := by
  have hflag : ∀ b, load ({ s with afterOperator := b }.above output below) < maxOutput :=
    fun _ => hload
  cases token with
  | number v =>
      refine emit_above (s := { s with afterOperator := false }) h ?_
      have hgrows := load_emit (s := { s with afterOperator := false }) h
      have hsame := hflag false
      rw [load_above] at hsame ⊢
      simp only [List.length_singleton] at hgrows
      omega
  | operator op =>
      exact release_hold_above (s := { s with afterOperator := true }) h
        (fun x hx => (hbelow x hx).yieldsTo_eq_false (some op)) (hflag true)
  | factorial =>
      exact release_hold_above (s := { s with afterOperator := false }) h
        (fun x hx => (hbelow x hx).yieldsTo_eq_false none) (hflag false)
  | function f => exact hold_above (s := { s with afterOperator := false }) h (hflag false)
  | neg =>
      by_cases hb : s.afterOperator = true
      · have habove : (s.above output below).afterOperator = true := hb
        simp only [feed, hb, if_true] at h
        simp only [feed, habove, if_true]
        exact hold_above (s := { s with afterOperator := true }) h (hflag true)
      · have habove : ¬ (s.above output below).afterOperator = true := hb
        simp only [feed, hb] at h
        simp only [feed, habove]
        exact hold_above (s := { s with afterOperator := false }) h (hflag false)
  | opening => exact hold_above (s := { s with afterOperator := false }) h (hflag false)
  | closing =>
      exact close_above (s := { s with afterOperator := false }) h
        (fun x hx => (hbelow x hx).1) (Nat.le_of_lt (hflag false))

/-- **A run.** -/
theorem feedAll_above {tokens : List Token} (h : s.feedAll tokens = .ok s')
    (hbelow : ∀ x ∈ below.head?, x.Waits)
    (hload : (s.above output below).load + tokens.length ≤ maxOutput) :
    (s.above output below).feedAll tokens = .ok (s'.above output below) := by
  induction tokens generalizing s with
  | nil =>
      cases h
      rfl
  | cons token rest ih =>
      rw [feedAll_cons] at h
      simp only [List.length_cons] at hload
      obtain ⟨r, hfeed, hrest⟩ := bind_eq_ok h
      have habove : (s.above output below).feed token = .ok (r.above output below) :=
        feed_above hfeed hbelow (by omega)
      have hgrows := load_feed habove
      rw [feedAll_cons_of_ok habove]
      exact ih hrest (by omega)

end Above

end Arranger

open Arranger Text

/-! ## Tokens that compile -/

theorem feedAll_of_reversePolish {tokens listing : List Token}
    (h : reversePolish tokens = .ok listing) : ∃ s : Arranger, feedAll {} tokens = .ok s ∧
      s.output ++ s.held.map Held.token = listing ∧ ∀ x ∈ s.held, x ≠ .opening := by
  obtain ⟨s, hfeed, hfinish⟩ := bind_eq_ok h
  obtain ⟨r, hrelease, hrest⟩ := bind_eq_ok hfinish
  obtain rfl := eq_of_emit hrelease
  split at hrest
  · next hempty =>
      have hall : s.held.takeWhile (· != .opening) = s.held := by
        have hnone : s.held.dropWhile (· != .opening) = [] := List.isEmpty_iff.1 hempty
        have hsplit := List.takeWhile_append_dropWhile (p := (· != .opening)) (l := s.held)
        rwa [hnone, List.append_nil] at hsplit
      cases hrest
      refine ⟨s, hfeed, by rw [hall], fun x hx => ?_⟩
      rw [← hall] at hx
      simpa using List.all_eq_true.1 List.all_takeWhile x hx
  · cases hrest

/-- **Tokens that compile are the content of a group**, whether they are an expression or not. -/
theorem Content.of_reversePolish {tokens listing : List Token}
    (h : Expression.reversePolish tokens = .ok listing) : Content tokens listing := by
  intro s hb hbelow hload
  obtain ⟨r, hfeed, hlisting, hheld⟩ := feedAll_of_reversePolish h
  have hstart : Arranger.above {} s.output s.held = s := by
    cases s
    simp only at hb
    simp [above, hb]
  have habove := feedAll_above (s := {}) hfeed hbelow (by rw [hstart]; exact hload)
  rw [hstart] at habove
  exact ⟨r.output, r.held, r.afterOperator, habove, hlisting, hheld⟩

section Compounds

variable {tokens listing : List Token}

/-- A group in parentheses leaves the listing of its content in the output. -/
theorem Content.takes_parenthesised (h : Content tokens listing)
    (hlength : tokens.length + 2 ≤ maxOutput) :
    Takes {} (.opening :: (tokens ++ [.closing])) listing (· ≠ .opening) := by
  have hgroup := h.feedAll (s := {}) (by simpa [load] using hlength)
  rw [releaseOwner_of_head (by simp)] at hgroup
  exact ⟨listing, [], false, hgroup, by simp, by simp⟩

theorem Content.takes_neg (h : Content tokens listing) (hlength : tokens.length + 1 ≤ maxOutput) :
    Takes {} (.neg :: tokens) (listing ++ [.neg]) (· ≠ .opening) := by
  have hsign := feed_groupSign (s := {}) rfl (by simp [load, maxOutput])
  refine Takes.push hsign (h _ rfl (by simp [Held.waits_groupSign]) ?_) (fun _ hx => hx) (by simp)
  simp only [load, List.length_nil, List.length_singleton]
  omega

theorem Content.takes_call (h : Content tokens listing) (f : Function)
    (hlength : tokens.length + 3 ≤ maxOutput) :
    Takes {} (.function f :: .opening :: (tokens ++ [.closing])) (listing ++ [.function f])
      (· ≠ .opening) := by
  have hname := feed_function (s := {}) f (by simp [load, maxOutput])
  refine (h.takes_owned hname rfl (by simpa [load] using hlength)).weaken ?_
  rintro _ ⟨g, rfl⟩
  simp

theorem Content.takes_binary {tokens' listing' : List Token} (h : Content tokens listing)
    (h' : Content tokens' listing') (op : Operator)
    (hlength : tokens.length + tokens'.length + 5 ≤ maxOutput) :
    Takes {} ((.opening :: (tokens ++ [.closing]))
        ++ .operator op :: .opening :: (tokens' ++ [.closing]))
      (listing ++ listing' ++ [.operator op]) (· ≠ .opening) := by
  have hlisting := h.length_le (by omega)
  have hfirst := h.feedAll (s := {}) (by simp only [load, List.length_nil]; omega)
  rw [releaseOwner_of_head (by simp), List.nil_append] at hfirst
  have hop : feed ⟨listing, [], false⟩ (.operator op) = .ok ⟨listing, [.operator op], true⟩ := by
    have hroom : load ⟨listing, [], false⟩ < maxOutput := by
      simp only [load, List.length_nil]
      omega
    simpa using feed_operator op (List.append_nil []).symm (by simp) (by simp) hroom
  have hsecond := h'.feedAll (s := ⟨listing, [.operator op], true⟩)
    (by simp only [load, List.length_singleton]; omega)
  -- a binary operator does not own the group behind it, but waits for the end
  rw [releaseOwner_of_head (by simp [Held.ownsGroup])] at hsecond
  refine ⟨listing ++ listing', [.operator op], false, ?_, rfl, by simp⟩
  rw [feedAll_append_of_ok hfirst, feedAll_cons_of_ok hop, hsecond]
  rfl

end Compounds

/-! ## Texts that are put together -/

section Texts

variable {cs : List Char} {tokens : List Token}

/-- The tokens of a text in parentheses are those of the text; what stands in front of them and
behind them does not matter. -/
theorem read?_parenthesised {more : List Char} {rest : List Token} (before : Bool)
    (h : read? false (Lexeme.cut cs) = some tokens)
    (hrest : read? true (Lexeme.cut more) = some rest) :
    read? before (Lexeme.cut ('(' :: (cs ++ ')' :: more)))
      = some (.opening :: (tokens ++ .closing :: rest)) := by
  rw [read?_opening, Lexeme.cut_append (by decide), read?_append, h, Option.bind_some,
    read?_closing, hrest]
  rfl

theorem read?_neg (h : read? false (Lexeme.cut cs) = some tokens) :
    read? false (Lexeme.cut ('-' :: cs)) = some (.neg :: tokens) := by
  rw [read?_minus, h, Option.map_some]

theorem read?_operator (op : Operator) (h : read? false (Lexeme.cut cs) = some tokens) :
    read? true (Lexeme.cut (op.symbol :: cs)) = some (.operator op :: tokens) := by
  rw [read?_symbol, h, Option.map_some]

theorem read?_name (f : Function) (before : Bool)
    (h : read? false (Lexeme.cut ('(' :: cs)) = some tokens) :
    read? before (Lexeme.cut (f.name.toList ++ '(' :: cs)) = some (.function f :: tokens) := by
  rw [read?_function f before (by simp [isLetter]), h, Option.map_some]

end Texts

/-! ## Negative values -/

section Negation

open Float.Model.Format
open Float.Model.UnpackedFloat

theorem isFinite_unpack {bits : BitVec binary64.numBits} :
    (unpack binary64 bits).isFinite = true ↔ unpackExponent bits ≠ 2047#11 := by
  unfold unpack
  by_cases hexponent : unpackExponent bits = 2047#11
  · by_cases hmantissa : unpackMantissa bits = 0#_ <;> simp [hexponent, hmantissa, isFinite]
  · have hne : unpackExponent bits ≠ -1#11 := hexponent
    simp only [hne, if_false]
    split
    · split <;> simp [isFinite, hexponent]
    · simp [isFinite, hexponent]

/-- The exponent that is read from a double and stored again leaves a bit unset. -/
theorem exponent_of_unpack {bits : BitVec binary64.numBits} {sign : Sign} {mantissa : Nat}
    {exponent : Int} {hpos : 0 < mantissa}
    (h : unpack binary64 bits = .finite sign mantissa exponent hpos) :
    (exponent + binary64.exponentBias + (52 : Nat)).toNat + 1 < 2 ^ 11 := by
  have hfinite := isFinite_unpack.1 (show (unpack binary64 bits).isFinite = true by rw [h]; rfl)
  have hne : unpackExponent bits ≠ -1#11 := hfinite
  have hlt : (unpackExponent bits).toNat < 2 ^ 11 := (unpackExponent bits).isLt
  have hnat : (unpackExponent bits).toNat ≠ 2047 := fun heq =>
    hfinite (BitVec.eq_of_toNat_eq heq)
  unfold unpack at h
  simp only [hne, if_false] at h
  split at h
  · split at h
    · cases h
    · next hzero _ =>
      injection h with _ _ hvalue
      have hzero' : (unpackExponent bits).toNat = 0 := congrArg BitVec.toNat hzero
      rw [← hvalue]
      omega
  · injection h with _ _ hvalue
    rw [← hvalue]
    omega

theorem unpackExponent_pack {sign : Sign} {mantissa : Nat} {exponent : Int}
    {hpos : 0 < mantissa} (h : (exponent + binary64.exponentBias + (52 : Nat)).toNat + 1 < 2 ^ 11) :
    unpackExponent (pack binary64 (.finite sign mantissa exponent hpos)) ≠ 2047#11 := by
  simp only [pack]
  rw [if_neg (Nat.not_le.2 h)]
  split
  · rw [unpackExponent_packComponents]
    intro heq
    have hmod : (exponent + binary64.exponentBias + (52 : Nat)).toNat % 2 ^ 11 = 2047 :=
      congrArg BitVec.toNat heq
    rw [Nat.mod_eq_of_lt (by omega)] at hmod
    omega
  · simp

/-- **The negative of a finite number is finite.** -/
theorem isFinite_neg {v : Float} (h : v.isFinite = true) : (-v).isFinite = true := by
  have hbits : (unpack binary64 v.toModel.toBits.toBitVec).isFinite = true := h
  show (unpack binary64 (pack binary64 (unpack binary64 v.toModel.toBits.toBitVec).neg)).isFinite
    = true
  rw [isFinite_unpack]
  cases hv : unpack binary64 v.toModel.toBits.toBitVec with
  | infinity sign | notANumber => simp [hv, isFinite] at hbits
  | zero sign => simp [neg, pack, packedZero]
  | finite sign mantissa exponent hpos => exact unpackExponent_pack (exponent_of_unpack hv)

end Negation

theorem evaluatePolish_neg {polish : List Token} {v : Float} (h : evaluatePolish polish = .ok v) :
    evaluatePolish (polish ++ [.neg]) = .ok (-v) := by
  unfold evaluatePolish at h ⊢
  rw [List.foldlM_append]
  cases hrun : polish.foldlM (fun stack token => Token.act token stack) [] with
  | error fault => simp [hrun, bind, Except.bind] at h
  | ok stack =>
      simp only [hrun, bind, Except.bind] at h ⊢
      match stack, h with
      | [x], h =>
          rw [result] at h
          split at h
          · next hfinite =>
              cases h
              show result [-v] = _
              rw [result, if_pos (isFinite_neg hfinite)]
          · cases h

/-! ## Groups -/

theorem tokenize_of_compile {source : String} {polish : List Token}
    (h : compile source = .ok polish) :
    ∃ tokens, read? false (Lexeme.cut source.toList) = some tokens ∧ Content tokens polish := by
  unfold compile at h
  cases htokens : tokenize source with
  | error fault => simp [htokens, bind, Except.bind] at h
  | ok tokens =>
      rw [htokens] at h
      exact ⟨tokens, (tokenize_eq_ok_iff.1 htokens).1, .of_reversePolish h⟩

theorem compile_of_takes {source : String} {tokens polish : List Token} (hfits : Fits source)
    (h : read? false (Lexeme.cut source.toList) = some tokens)
    (htakes : tokens.length ≤ maxOutput → Takes {} tokens polish (· ≠ .opening)) :
    compile source = .ok polish := by
  have htokens := tokenize_of_read? hfits h
  have hlength := length_le_of_tokenize htokens
  rw [compile, htokens]
  exact (htakes hlength).reversePolish hlength

/-- **Compilation is compositional over groups.** What compiles on its own, expression or not,
compiles to the same listing inside parentheses, behind a sign, as the argument of a function and
on either side of an operator, as long as the whole text still fits. -/
theorem compile_groups {source first second : String} {polish polish₁ polish₂ : List Token}
    (h : compile source = .ok polish) (h₁ : compile first = .ok polish₁)
    (h₂ : compile second = .ok polish₂) :
    (Fits ("(" ++ source ++ ")") → compile ("(" ++ source ++ ")") = .ok polish ∧
      evaluate ("(" ++ source ++ ")") = evaluate source) ∧
    (Fits ("-" ++ source) → compile ("-" ++ source) = .ok (polish ++ [.neg]) ∧
      ∀ v, evaluate source = .ok v → evaluate ("-" ++ source) = .ok (-v)) ∧
    (∀ f : Function, Fits (f.name ++ "(" ++ source ++ ")") →
      compile (f.name ++ "(" ++ source ++ ")") = .ok (polish ++ [.function f])) ∧
    ∀ op : Operator,
      Fits ("(" ++ first ++ ")" ++ String.singleton op.symbol ++ "(" ++ second ++ ")") →
      compile ("(" ++ first ++ ")" ++ String.singleton op.symbol ++ "(" ++ second ++ ")")
        = .ok (polish₁ ++ polish₂ ++ [.operator op]) := by
  obtain ⟨tokens, hread, hcontent⟩ := tokenize_of_compile h
  obtain ⟨tokens₁, hread₁, hcontent₁⟩ := tokenize_of_compile h₁
  obtain ⟨tokens₂, hread₂, hcontent₂⟩ := tokenize_of_compile h₂
  have hnothing : read? true (Lexeme.cut []) = some [] := by simp [read?]
  -- each form is read as a frame around the tokens of its parts, which are taken as a whole
  refine ⟨fun hfits => ?_, fun hfits => ?_, fun f hfits => ?_, fun op hfits => ?_⟩
  · have hgroup : compile ("(" ++ source ++ ")") = .ok polish := by
      refine compile_of_takes hfits ?_ fun hlength => hcontent.takes_parenthesised ?_
      · simpa using read?_parenthesised false hread hnothing
      · simp only [List.length_append, List.length_cons, List.length_nil] at hlength
        omega
    refine ⟨hgroup, ?_⟩
    rw [evaluate, evaluate, hgroup, h]
  · have hneg : compile ("-" ++ source) = .ok (polish ++ [.neg]) := by
      refine compile_of_takes hfits ?_ fun hlength => hcontent.takes_neg ?_
      · simpa using read?_neg hread
      · simpa only [List.length_cons] using hlength
    refine ⟨hneg, fun v hv => ?_⟩
    rw [evaluate, h] at hv
    rw [evaluate, hneg]
    exact evaluatePolish_neg hv
  · refine compile_of_takes hfits ?_ fun hlength => hcontent.takes_call f ?_
    · simpa using read?_name f false (read?_parenthesised false hread hnothing)
    · simp only [List.length_append, List.length_cons, List.length_nil] at hlength
      omega
  · refine compile_of_takes hfits ?_ fun hlength => hcontent₁.takes_binary hcontent₂ op ?_
    · simpa using read?_parenthesised false hread₁
        (read?_operator op (read?_parenthesised false hread₂ hnothing))
    · simp only [List.length_append, List.length_cons, List.length_nil] at hlength
      omega

/-- A text with an operator too many, and one without any token. -/
theorem compile_groups_unfinished :
    compile "(pi!-)" = .ok [.number pi, .factorial, .operator .sub] ∧
      evaluate "-pi" = .ok (-pi) ∧
      compile "sqrt(pi!-)" = .ok [.number pi, .factorial, .operator .sub, .function .sqrt] ∧
      compile "(pi!-)/()" = .ok [.number pi, .factorial, .operator .sub, .operator .div] := by
  have hdifference : compile "pi!-" = .ok [.number pi, .factorial, .operator .sub] := by
    have htokens : tokenize "pi!-" = .ok [.number pi, .factorial, .operator .sub] := by
      simp [tokenize, Lexeme.scan, Lexeme.next, isAsciiBlank, isLetter, List.takeWhile_cons,
        List.dropWhile_cons]
      rfl
    rw [compile, htokens]
    rfl
  have hconstant : compile "pi" = .ok [.number pi] := by
    have htokens : tokenize "pi" = .ok [.number pi] := by
      simp [tokenize, Lexeme.scan, Lexeme.next, isAsciiBlank, isLetter, List.takeWhile_cons,
        List.dropWhile_cons]
      rfl
    rw [compile, htokens]
    rfl
  have hvalue : evaluate "pi" = .ok pi := by
    rw [evaluate, hconstant]
    rfl
  have hnothing : compile "" = .ok [] := by
    have htokens : tokenize "" = .ok [] := by simp [tokenize, Lexeme.scan, tokensOf]
    rw [compile, htokens]
    rfl
  have hgroups := compile_groups hdifference hdifference hnothing
  have hsigned := compile_groups hconstant hconstant hconstant
  exact ⟨(hgroups.1 (fits_of_length_le (by decide))).1,
    (hsigned.2.1 (fits_of_length_le (by decide))).2 pi hvalue,
    hgroups.2.2.1 .sqrt (fits_of_length_le (by decide)),
    hgroups.2.2.2 .div (fits_of_length_le (by decide))⟩

end DeskShell.Expression
