import DeskShell.Expression.Evaluate
import DeskShell.Proofs.Expression.Arranger
import DeskShell.Proofs.Expression.Grammar
import DeskShell.Proofs.Expression.Lexing

/-!
# The stack machine reads the grammar

The machine brings the tokens of a group into the post-order of its tree. What carries the proof is
`Takes`: a phrase leaves its listing partly in the output and partly on the stack, on top of what
was held before, and what it leaves on the stack is released by any token that can follow. For a
chain of operands this is an invariant about two neighbours (`Segment.binary`), and the grammar is
then followed constructor by constructor.
-/

set_option autoImplicit false

namespace DeskShell.Expression

namespace Arranger

/-- Taking in `tokens` in the state `s` adds a listing: its first part is in the output, the rest
on the stack, on top of what was held, and all that is left on the stack satisfies `loose`. -/
def Takes (s : Arranger) (tokens listing : List Token) (loose : Held → Prop) : Prop :=
  ∃ released kept b, s.feedAll tokens = .ok ⟨s.output ++ released, kept ++ s.held, b⟩ ∧
    released ++ kept.map Held.token = listing ∧ ∀ h ∈ kept, loose h

theorem Takes.weaken {s : Arranger} {tokens listing : List Token} {p q : Held → Prop}
    (ht : s.Takes tokens listing p) (hpq : ∀ h, p h → q h) : s.Takes tokens listing q := by
  obtain ⟨released, kept, b, hfeed, hlisting, hkept⟩ := ht
  exact ⟨released, kept, b, hfeed, hlisting, fun h hh => hpq h (hkept h hh)⟩

theorem Takes.length_le {s : Arranger} {tokens listing : List Token} {p : Held → Prop}
    (ht : s.Takes tokens listing p) : listing.length ≤ tokens.length := by
  obtain ⟨released, kept, b, hfeed, rfl, -⟩ := ht
  have hload := load_feedAll hfeed
  simp only [load, List.length_append, List.length_map] at hload ⊢
  omega

/-- A token that is held waits behind the listing of what follows it. -/
theorem Takes.push {s : Arranger} {token : Token} {h : Held} {b : Bool}
    {tokens listing : List Token} {p q : Held → Prop}
    (hfeed : s.feed token = .ok ⟨s.output, h :: s.held, b⟩)
    (ht : Takes ⟨s.output, h :: s.held, b⟩ tokens listing p) (hpq : ∀ k, p k → q k) (hq : q h) :
    s.Takes (token :: tokens) (listing ++ [h.token]) q := by
  obtain ⟨released, kept, b', hrest, rfl, hkept⟩ := ht
  refine ⟨released, kept ++ [h], b', ?_, by simp, ?_⟩
  · rw [feedAll_cons_of_ok hfeed]
    simpa using hrest
  · intro k hk
    rcases List.mem_append.1 hk with hk | hk
    · exact hpq k (hkept k hk)
    · rw [List.mem_singleton] at hk
      exact hk ▸ hq

/-! ## Single tokens -/

theorem feed_number {s : Arranger} (v : Float) (hload : s.load < maxOutput) :
    s.feed (.number v) = .ok ⟨s.output ++ [.number v], s.held, false⟩ :=
  emit_of_load (s := { s with afterOperator := false }) hload

theorem feed_function {s : Arranger} (f : Function) (hload : s.load < maxOutput) :
    s.feed (.function f) = .ok ⟨s.output, .function f :: s.held, false⟩ :=
  hold_of_load (s := { s with afterOperator := false }) hload

theorem feed_opening {s : Arranger} (hload : s.load < maxOutput) :
    s.feed .opening = .ok ⟨s.output, .opening :: s.held, false⟩ :=
  hold_of_load (s := { s with afterOperator := false }) hload

theorem feed_groupSign {s : Arranger} (hb : s.afterOperator = false) (hload : s.load < maxOutput) :
    s.feed .neg = .ok ⟨s.output, .groupSign :: s.held, false⟩ := by
  rw [feed, hb]
  exact hold_of_load (s := { s with afterOperator := false }) hload

theorem feed_operandSign {s : Arranger} (hb : s.afterOperator = true)
    (hload : s.load < maxOutput) :
    s.feed .neg = .ok ⟨s.output, .operandSign :: s.held, true⟩ := by
  rw [feed, hb]
  exact hold_of_load (s := { s with afterOperator := true }) hload

/-- A binary operator releases all that yields to it and is held in its place. -/
theorem feed_operator {s : Arranger} {kept below : List Held} (op : Operator)
    (hheld : s.held = kept ++ below) (hkept : ∀ h ∈ kept, h.yieldsTo (some op) = true)
    (hbelow : ∀ h ∈ below.head?, h.yieldsTo (some op) = false) (hload : s.load < maxOutput) :
    s.feed (.operator op)
      = .ok ⟨s.output ++ kept.map Held.token, .operator op :: below, true⟩ := by
  have hrelease := release_append (s := { s with afterOperator := true }) hheld hkept hbelow
    (Nat.le_of_lt hload)
  have hafter : load ⟨s.output ++ kept.map Held.token, below, true⟩ < maxOutput := by
    simp only [load, hheld, List.length_append, List.length_map] at hload ⊢
    omega
  rw [feed, hrelease]
  exact hold_of_load hafter

theorem feed_factorial {s : Arranger} {kept below : List Held}
    (hheld : s.held = kept ++ below) (hkept : ∀ h ∈ kept, h.yieldsTo none = true)
    (hbelow : ∀ h ∈ below.head?, h.yieldsTo none = false) (hload : s.load < maxOutput) :
    s.feed .factorial
      = .ok ⟨s.output ++ kept.map Held.token, .factorial :: below, false⟩ := by
  have hrelease := release_append (s := { s with afterOperator := false }) hheld hkept hbelow
    (Nat.le_of_lt hload)
  have hafter : load ⟨s.output ++ kept.map Held.token, below, false⟩ < maxOutput := by
    simp only [load, hheld, List.length_append, List.length_map] at hload ⊢
    omega
  rw [feed, hrelease]
  exact hold_of_load hafter

/-- A closing parenthesis releases the content of its group, and what owns the group may take
it. -/
theorem feed_closing {s : Arranger} {kept below : List Held}
    (hheld : s.held = kept ++ .opening :: below) (hkept : ∀ h ∈ kept, h ≠ .opening)
    (hload : s.load ≤ maxOutput) :
    s.feed .closing
      = releaseOwner ⟨s.output ++ kept.map Held.token, below, false⟩ := by
  have hrelease := release_append (s := { s with afterOperator := false }) (p := (· != .opening))
    hheld (by simpa using hkept) (by simp) hload
  rw [feed]
  show close { s with afterOperator := false } = _
  rw [close, hrelease]
  rfl

end Arranger

open Arranger Text

/-! ## Chains -/

/-- What a chain with the operators `ops` leaves on the stack: operators of the chain, and what
every operator releases. -/
def Held.LooseBut (ops : List Operator) (h : Held) : Prop :=
  (∀ op, h.yieldsTo (some op) = true) ∨ ∃ op ∈ ops, h = .operator op

/-- The machine reads `tokens` as the tree of a chain with the operators `ops`, where the flag of
the state is `afterOperator` and the top of the stack waits for the end of the chain. -/
def Segment (afterOperator : Bool) (ops : List Operator) (tokens : List Token) (tree : Tree) :
    Prop :=
  ∀ s : Arranger, s.afterOperator = afterOperator →
    (∀ h ∈ s.held.head?, h.ownsGroup = false ∧ ∀ op ∈ ops, h.yieldsTo (some op) = false) →
    s.load + tokens.length ≤ maxOutput → s.Takes tokens tree.postOrder (Held.LooseBut ops)

/-- **Two neighbours of a chain.** An operator between two segments is the root of both, if it
releases every operator of the left one and is released by none of the right one. -/
theorem Segment.binary {b : Bool} {left right : List Operator} {first second : List Token}
    {l r : Tree} {op : Operator} (hl : Segment b left first l) (hr : Segment true right second r)
    (hleft : ∀ o ∈ left, (Held.operator o).yieldsTo (some op) = true)
    (hright : ∀ o ∈ right, (Held.operator op).yieldsTo (some o) = false) :
    Segment b (left ++ op :: right) (first ++ .operator op :: second) (.binary op l r) := by
  intro s hb hhead hload
  simp only [List.length_append, List.length_cons] at hload
  obtain ⟨released, kept, b₁, hfirst, hlisting, hkept⟩ := hl s hb
    (fun h hh => ⟨(hhead h hh).1, fun o ho => (hhead h hh).2 o (List.mem_append_left _ ho)⟩)
    (by omega)
  have hload₁ := load_feedAll hfirst
  -- everything above the old stack goes to the output, and the operator is held in its place
  have hop := feed_operator (s := ⟨s.output ++ released, kept ++ s.held, b₁⟩) op rfl
    (fun h hh => by
      rcases hkept h hh with hall | ⟨o, ho, rfl⟩
      · exact hall op
      · exact hleft o ho)
    (fun h hh => (hhead h hh).2 op (by simp)) (by omega)
  rw [List.append_assoc, hlisting] at hop
  have hload₂ := load_feed hop
  obtain ⟨released', kept', b₂, hsecond, hlisting', hkept'⟩ :=
    hr ⟨s.output ++ l.postOrder, .operator op :: s.held, true⟩ rfl
      (by
        intro h hh
        simp only [List.head?_cons, Option.mem_some_iff] at hh
        subst hh
        exact ⟨rfl, hright⟩)
      (by omega)
  refine ⟨l.postOrder ++ released', kept' ++ [.operator op], b₂, ?_, ?_, ?_⟩
  · rw [feedAll_append_of_ok hfirst, feedAll_cons_of_ok hop]
    simpa using hsecond
  · rw [Tree.postOrder, ← hlisting']
    simp [Held.token]
  · intro h hh
    rcases List.mem_append.1 hh with hh | hh
    · rcases hkept' h hh with hall | ⟨o, ho, rfl⟩
      · exact .inl hall
      · exact .inr ⟨o, by simp [ho], rfl⟩
    · rw [List.mem_singleton] at hh
      exact .inr ⟨op, by simp, hh⟩

/-- The tokens of the rest of a chain, with the operators and the trees of the operands. -/
inductive Writes : List Token → List (Operator × Tree) → Prop
  | done : Writes [] []
  | more {op : Operator} {operand rest : List Token} {tree : Tree}
      {operands : List (Operator × Tree)} :
      Segment true [] operand tree → Writes rest operands →
      Writes (.operator op :: (operand ++ rest)) ((op, tree) :: operands)

/-- The rest of a chain falls apart at each of its operators. -/
theorem Writes.split {tokens : List Token} {before after : List (Operator × Tree)} {op : Operator}
    {tree : Tree} (h : Writes tokens (before ++ (op, tree) :: after)) :
    ∃ first operand second, tokens = first ++ .operator op :: (operand ++ second) ∧
      Writes first before ∧ Segment true [] operand tree ∧ Writes second after := by
  induction before generalizing tokens with
  | nil =>
      cases h with
      | more hoperand hrest => exact ⟨[], _, _, rfl, .done, hoperand, hrest⟩
  | cons x before ih =>
      cases h with
      | more hoperand hrest =>
          obtain ⟨first, operand, second, rfl, hfirst, hmiddle, hsecond⟩ := ih hrest
          exact ⟨_, operand, second, by simp, .more hoperand hfirst, hmiddle, hsecond⟩

/-! ## Precedence -/

/-- A held operator yields to one that binds less, and to one that binds alike and groups to the
left. -/
theorem yieldsTo_operator (held op : Operator) :
    (Held.operator held).yieldsTo (some op) = decide (op.precedence < held.precedence ∨
      (op.precedence = held.precedence ∧ op.associativity = .left)) := by
  cases held <;> cases op <;> rfl

theorem yieldsTo_additive {op : Operator} (h : op.isAdditive = true) (held : Operator) :
    (Held.operator held).yieldsTo (some op) = true := by
  rw [yieldsTo_operator]
  revert h
  cases op <;> cases held <;> decide

theorem yieldsTo_multiplicative {op held : Operator} (h : op.isMultiplicative = true)
    (hheld : held.isAdditive = false) : (Held.operator held).yieldsTo (some op) = true := by
  rw [yieldsTo_operator]
  revert h hheld
  cases op <;> cases held <;> decide

theorem additive_not_yieldsTo {held op : Operator} (hheld : held.isAdditive = true)
    (h : op.isAdditive = false) : (Held.operator held).yieldsTo (some op) = false := by
  rw [yieldsTo_operator]
  revert hheld h
  cases op <;> cases held <;> decide

theorem not_yieldsTo_power {held op : Operator} (h₁ : op.isAdditive = false)
    (h₂ : op.isMultiplicative = false) (hheld : held.isAdditive = false) :
    (Held.operator held).yieldsTo (some op) = false := by
  rw [yieldsTo_operator]
  revert h₁ h₂ hheld
  cases op <;> cases held <;> decide

/-- **A chain is read as it is arranged.** -/
theorem Writes.segment {b : Bool} {first rest : List Token} {tree : Tree}
    {operands : List (Operator × Tree)} (hfirst : Segment b [] first tree)
    (hrest : Writes rest operands) :
    Segment b (operands.map (·.1)) (first ++ rest) (arrange tree operands) := by
  fun_induction arrange tree operands generalizing b first rest with
  -- a sum or product is split at its last operator, so the ones in front yield to it
  | case1 tree operands before op operand after hsum ihbefore ihafter =>
      obtain ⟨hparts, hop, hafter⟩ := splitLast_eq_some hsum
      subst hparts
      obtain ⟨first', middle, second, rfl, hfirst', hmiddle, hsecond⟩ := hrest.split
      have hsegment := (ihbefore hfirst hfirst').binary (ihafter hmiddle hsecond)
        (fun o _ => yieldsTo_additive hop o)
        (fun o ho => by
          obtain ⟨x, hx, rfl⟩ := List.mem_map.1 ho
          exact additive_not_yieldsTo hop (hafter x hx))
      simpa using hsegment
  | case2 tree operands hsum before op operand after hproduct ihbefore ihafter =>
      obtain ⟨hparts, hop, hafter⟩ := splitLast_eq_some hproduct
      have hnosum := splitLast_eq_none hsum
      subst hparts
      obtain ⟨first', middle, second, rfl, hfirst', hmiddle, hsecond⟩ := hrest.split
      have hsegment := (ihbefore hfirst hfirst').binary (ihafter hmiddle hsecond)
        (fun o ho => by
          obtain ⟨x, hx, rfl⟩ := List.mem_map.1 ho
          exact yieldsTo_multiplicative hop (hnosum x (by simp [hx])))
        (fun o ho => by
          obtain ⟨x, hx, rfl⟩ := List.mem_map.1 ho
          exact not_yieldsTo_power (hnosum x (by simp [hx])) (hafter x hx)
            (hnosum (op, operand) (by simp)))
      simpa using hsegment
  | case3 tree =>
      cases hrest
      simpa using hfirst
  | case4 tree op operand after hsum hproduct ihafter =>
      have hnosum := splitLast_eq_none hsum
      have hnoproduct := splitLast_eq_none hproduct
      cases hrest with
      | more hoperand hafter =>
          -- only powers are left, and the first of them waits for all others
          have hsegment := hfirst.binary (ihafter hoperand hafter) (by simp)
            (fun o ho => by
              obtain ⟨x, hx, rfl⟩ := List.mem_map.1 ho
              exact not_yieldsTo_power (hnosum x (by simp [hx])) (hnoproduct x (by simp [hx]))
                (hnosum (op, operand) (by simp)))
          simpa using hsegment

/-! ## Factorial marks -/

theorem Tree.postOrder_factorials (n : Nat) (t : Tree) :
    (Tree.factorials n t).postOrder = t.postOrder ++ List.replicate n .factorial := by
  induction n with
  | zero => simp [Tree.factorials]
  | succ n ih =>
      rw [Tree.factorials, Tree.postOrder, ih, List.append_assoc, ← List.replicate_succ']

/-- A function takes the operand that ends before a mark or an operator. -/
def Held.IsFunction (h : Held) : Prop := ∃ f, h = .function f

theorem yieldsTo_none_of_not_isFunction {h : Held} (hf : ¬ h.IsFunction) :
    h.yieldsTo none = false := by
  cases h with
  | operator op => cases op <;> rfl
  | function f => exact absurd ⟨f, rfl⟩ hf
  | factorial | groupSign | operandSign | opening => rfl

theorem feedAll_marks {s : Arranger} (n : Nat) (hb : s.afterOperator = false)
    (hhead : ∀ h ∈ s.held.head?, ¬ h.IsFunction) (hload : s.load + n ≤ maxOutput) :
    s.feedAll (List.replicate n .factorial)
      = .ok ⟨s.output, List.replicate n .factorial ++ s.held, false⟩ := by
  induction n generalizing s with
  | zero => simp [← hb]
  | succ n ih =>
      have hmark := feed_factorial (List.nil_append s.held).symm (by simp)
        (fun h hh => yieldsTo_none_of_not_isFunction (hhead h hh)) (by omega)
      have hload' := load_feed hmark
      rw [List.replicate_succ, feedAll_cons_of_ok hmark, ih rfl (by simp [Held.IsFunction])
        (by omega)]
      simp [List.replicate_succ']

/-! ## Atoms and operands -/

def Atom.isGroup : Atom → Bool
  | .group _ => true
  | _ => false

def Marked.startsGroup : Marked → Bool
  | .mk a _ => a.isGroup

def Signed.startsGroup : Signed → Bool
  | .neg _ => false
  | .plain p => p.startsGroup

theorem not_isFunction_of_ownsGroup {h : Held} (howns : h.ownsGroup = false) :
    ¬ h.IsFunction := by
  rintro ⟨f, rfl⟩
  simp [Held.ownsGroup] at howns

/-- What a marked atom leaves on the stack behind a sign or an operator. -/
def Held.Loose (h : Held) : Prop := ∀ op, h.yieldsTo (some op) = true

theorem Held.IsFunction.loose {h : Held} (hf : h.IsFunction) : h.Loose := by
  obtain ⟨f, rfl⟩ := hf
  exact fun _ => rfl

theorem Held.loose_factorial : Held.factorial.Loose := by
  intro op
  cases op <;> rfl

/-- Whether a held operator stays where it is up to the end of the group above it. -/
def Held.Waits (h : Held) : Prop := h.ownsGroup = false ∧ ∀ op, h.yieldsTo (some op) = false

theorem Held.Waits.yieldsTo_eq_false {h : Held} (hwaits : h.Waits) (incoming : Option Operator) :
    h.yieldsTo incoming = false := by
  cases incoming with
  | none => exact yieldsTo_none_of_not_isFunction (not_isFunction_of_ownsGroup hwaits.1)
  | some op => exact hwaits.2 op

theorem Held.waits_opening : Held.opening.Waits := ⟨rfl, fun _ => rfl⟩

theorem Held.waits_groupSign : Held.groupSign.Waits := ⟨rfl, fun _ => rfl⟩

/-- The machine reads `tokens` as the content of a group, on top of what waits for the end of the
group. -/
def Content (tokens listing : List Token) : Prop :=
  ∀ s : Arranger, s.afterOperator = false → (∀ h ∈ s.held.head?, h.Waits) →
    s.load + tokens.length ≤ maxOutput → s.Takes tokens listing (· ≠ .opening)

theorem Content.length_le {tokens listing : List Token} (h : Content tokens listing)
    (hload : tokens.length ≤ maxOutput) : listing.length ≤ tokens.length :=
  (h {} rfl (by simp) (by simpa [load] using hload)).length_le

/-- A group in parentheses goes to the output, and then what owns it. -/
theorem Content.feedAll {tokens listing : List Token} (h : Content tokens listing) {s : Arranger}
    (hload : s.load + (tokens.length + 2) ≤ maxOutput) :
    s.feedAll (.opening :: (tokens ++ [.closing]))
      = releaseOwner ⟨s.output ++ listing, s.held, false⟩ := by
  have hopen := feed_opening (s := s) (by omega)
  have hload₁ := load_feed hopen
  obtain ⟨released, kept, b, hcontent, rfl, hkept⟩ :=
    h ⟨s.output, .opening :: s.held, false⟩ rfl (by simp [Held.waits_opening]) (by omega)
  have hload₂ := load_feedAll hcontent
  rw [feedAll_cons_of_ok hopen, feedAll_append_of_ok hcontent, feedAll_singleton,
    feed_closing rfl hkept (by omega), List.append_assoc]

theorem releaseOwner_of_head {s : Arranger} (h : ∀ top ∈ s.held.head?, top.ownsGroup = false) :
    s.releaseOwner = .ok s := by
  unfold releaseOwner
  split
  · next top rest hheld => simp [h top (by simp [hheld])]
  · rfl

theorem releaseOwner_cons {output : List Token} {owner : Held} {below : List Held}
    (h : owner.ownsGroup = true) (hload : output.length + below.length < maxOutput) :
    releaseOwner ⟨output, owner :: below, false⟩
      = .ok ⟨output ++ [owner.token], below, false⟩ := by
  have hroom : load ⟨output, below, false⟩ + [owner.token].length ≤ maxOutput := hload
  rw [releaseOwner]
  simp only [h, if_true]
  exact emit_of_load hroom

/-- A sign or a function in front of a parenthesis follows the group as soon as that is closed. -/
theorem Content.takes_owned {tokens listing : List Token} (h : Content tokens listing)
    {s : Arranger} {token : Token} {owner : Held} {b : Bool}
    (hfeed : s.feed token = .ok ⟨s.output, owner :: s.held, b⟩) (howns : owner.ownsGroup = true)
    (hload : s.load + (tokens.length + 3) ≤ maxOutput) :
    s.Takes (token :: .opening :: (tokens ++ [.closing])) (listing ++ [owner.token])
      Held.IsFunction := by
  have hload₁ := load_feed hfeed
  have hgroup := h.feedAll (s := ⟨s.output, owner :: s.held, b⟩) (by omega)
  have hlisting := h.length_le (by omega)
  have hroom : (s.output ++ listing).length + s.held.length < maxOutput := by
    simp only [load, List.length_append] at hload ⊢
    omega
  rw [releaseOwner_cons howns hroom] at hgroup
  refine ⟨listing ++ [owner.token], [], false, ?_, by simp, by simp⟩
  rw [feedAll_cons_of_ok hfeed, hgroup]
  simp

/-- Marks behind an atom release the functions that wait for it. -/
theorem Arranger.Takes.marks {s : Arranger} {tokens listing : List Token} (n : Nat)
    (ht : s.Takes tokens listing Held.IsFunction)
    (hhead : ∀ h ∈ s.held.head?, ¬ h.IsFunction)
    (hload : s.load + (tokens.length + n) ≤ maxOutput) :
    s.Takes (tokens ++ List.replicate n .factorial) (listing ++ List.replicate n .factorial)
      Held.Loose := by
  obtain ⟨released, kept, b, hatom, hlisting, hkept⟩ := ht
  have hload₁ := load_feedAll hatom
  cases n with
  | zero =>
      exact ⟨released, kept, b, by simpa using hatom, by simpa using hlisting,
        fun h hh => (hkept h hh).loose⟩
  | succ n =>
      have hmark := feed_factorial (s := ⟨s.output ++ released, kept ++ s.held, b⟩) rfl
        (fun h hh => by
          obtain ⟨f, rfl⟩ := hkept h hh
          rfl)
        (fun h hh => yieldsTo_none_of_not_isFunction (hhead h hh)) (by omega)
      rw [List.append_assoc, hlisting] at hmark
      have hload₂ := load_feed hmark
      have hrest := feedAll_marks (s := ⟨s.output ++ listing, .factorial :: s.held, false⟩) n rfl
        (by simp [Held.IsFunction]) (by omega)
      refine ⟨listing, List.replicate (n + 1) .factorial, false, ?_, by simp [Held.token], ?_⟩
      · rw [feedAll_append_of_ok hatom, List.replicate_succ, feedAll_cons_of_ok hmark, hrest]
        simp [List.replicate_succ']
      · intro h hh
        rw [List.eq_of_mem_replicate hh]
        exact Held.loose_factorial

/-- A sign in front of an operand that does not start with a parenthesis negates its tree. -/
theorem Signed.tree_neg {o : Signed} (h : o.startsGroup = false) :
    (Signed.neg o).tree = .neg o.tree := by
  rw [Signed.tree]
  rintro g n rfl
  simp [Signed.startsGroup, Marked.startsGroup, Atom.isGroup] at h

/-! ## The grammar -/

mutual

/-- The content of a group is read as its tree. -/
theorem Group.content (g : Group) : Content g.tokens g.tree.postOrder := by
  intro s hb hhead hload
  cases g with
  | neg g =>
      have hload' : s.load + (g.tokens.length + 1) ≤ maxOutput := hload
      have hsign := feed_groupSign (s := s) hb (by omega)
      have hload₁ := load_feed hsign
      exact Takes.push hsign
        (g.content _ rfl (by simp [Held.waits_groupSign]) (by omega)) (fun _ h => h) (by simp)
  | chain first rest =>
      have hfirst : Segment false [] first.tokens first.tree :=
        fun s hb hhead hload => (first.takes (fun _ h hh => (hhead h hh).1)
          (fun h hh => not_isFunction_of_ownsGroup (hhead h hh).1) hload).weaken
          fun h hh => .inl hh
      refine (rest.writes.segment hfirst s hb (fun h hh => ⟨(hhead h hh).1, fun op _ =>
        (hhead h hh).2 op⟩) hload).weaken ?_
      rintro h (hloose | ⟨op, -, rfl⟩) hopen
      · rw [hopen] at hloose
        exact absurd (hloose .add) (by simp [Held.yieldsTo])
      · cases hopen

theorem Tail.writes (t : Tail) : Writes t.tokens t.operands := by
  cases t with
  | done => exact .done
  | more op o rest =>
      refine .more ?_ rest.writes
      intro s hb hhead hload
      exact (o.takes hb (fun _ h hh => (hhead h hh).1)
        (fun h hh => not_isFunction_of_ownsGroup (hhead h hh).1) hload).weaken fun h hh => .inl hh

/-- An operand behind an operator. A sign in front of a parenthesis is the owner of the group and
goes to the output before the marks; any other sign waits behind them. -/
theorem Signed.takes (o : Signed) {s : Arranger} (hb : s.afterOperator = true)
    (howner : o.startsGroup = true → ∀ h ∈ s.held.head?, h.ownsGroup = false)
    (hhead : ∀ h ∈ s.held.head?, ¬ h.IsFunction)
    (hload : s.load + o.tokens.length ≤ maxOutput) :
    s.Takes o.tokens o.tree.postOrder Held.Loose := by
  cases o with
  | plain p => exact p.takes howner hhead hload
  | neg o =>
      have hload' : s.load + (o.tokens.length + 1) ≤ maxOutput := hload
      have hsign := feed_operandSign (s := s) hb (by omega)
      have hload₁ := load_feed hsign
      by_cases hgroup : o.startsGroup = true
      · match o, hgroup with
        | .plain (.mk (.group g) n), _ =>
            have hlength : (Signed.plain (.mk (.group g) n)).tokens.length
                = g.tokens.length + 2 + n := by
              simp [Signed.tokens, Marked.tokens, Atom.tokens]
              omega
            have howned := g.content.takes_owned (s := s) hsign rfl (by omega)
            have hmarks := howned.marks n hhead (by simp only [List.length_cons,
              List.length_append, List.length_nil]; omega)
            rw [Signed.tree, Tree.postOrder_factorials]
            simpa [Signed.tokens, Marked.tokens, Atom.tokens, Tree.postOrder, Held.token]
              using hmarks
      · rw [Signed.tree_neg (by simpa using hgroup)]
        exact Takes.push hsign
          (o.takes rfl (fun h => absurd h hgroup) (by simp [Held.IsFunction]) (by omega))
          (fun _ h => h) (fun _ => rfl)

theorem Marked.takes (p : Marked) {s : Arranger}
    (howner : p.startsGroup = true → ∀ h ∈ s.held.head?, h.ownsGroup = false)
    (hhead : ∀ h ∈ s.held.head?, ¬ h.IsFunction)
    (hload : s.load + p.tokens.length ≤ maxOutput) :
    s.Takes p.tokens p.tree.postOrder Held.Loose := by
  cases p with
  | mk a n =>
      have hload' : s.load + (a.tokens.length + n) ≤ maxOutput := by
        simpa [Marked.tokens] using hload
      rw [Marked.tree, Tree.postOrder_factorials]
      exact (a.takes howner (by omega)).marks n hhead hload'

/-- An atom leaves functions on the stack. -/
theorem Atom.takes (a : Atom) {s : Arranger}
    (howner : a.isGroup = true → ∀ h ∈ s.held.head?, h.ownsGroup = false)
    (hload : s.load + a.tokens.length ≤ maxOutput) :
    s.Takes a.tokens a.tree.postOrder Held.IsFunction := by
  cases a with
  | number v =>
      have hnumber := feed_number (s := s) v hload
      refine ⟨[.number v], [], false, ?_, rfl, by simp⟩
      rw [Atom.tokens, feedAll_singleton, hnumber]
      rfl
  | group g =>
      have hgroup := g.content.feedAll (s := s) (by simpa [Atom.tokens] using hload)
      rw [releaseOwner_of_head (s := ⟨s.output ++ g.tree.postOrder, s.held, false⟩)
        (howner rfl)] at hgroup
      exact ⟨g.tree.postOrder, [], false, hgroup, by simp [Atom.tree], by simp⟩
  | call f a =>
      have hload' : s.load + (a.tokens.length + 1) ≤ maxOutput := hload
      have hname := feed_function (s := s) f (by omega)
      have hload₁ := load_feed hname
      by_cases hgroup : a.isGroup = true
      · -- the function takes the group as soon as it is closed
        match a, hgroup with
        | .group g, _ =>
            have hlength : (Atom.group g).tokens.length = g.tokens.length + 2 := by
              simp [Atom.tokens]
            exact g.content.takes_owned hname rfl (by omega)
      · exact Takes.push hname (a.takes (fun h => absurd h hgroup) (by omega)) (fun _ h => h)
          ⟨f, rfl⟩

end

/-! ## Expressions -/

/-- What is left on the stack at the end goes to the output. -/
theorem Arranger.Takes.reversePolish {tokens listing : List Token}
    (h : Takes {} tokens listing (· ≠ .opening)) (hload : tokens.length ≤ maxOutput) :
    Expression.reversePolish tokens = .ok listing := by
  obtain ⟨released, kept, b, hfeed, rfl, hkept⟩ := h
  have hload' := load_feedAll hfeed
  have hrelease := release_append (s := ⟨released, kept, b⟩) (p := (· != .opening))
    (List.append_nil kept).symm (by simpa using hkept) (by simp)
    (by simp [load] at hload' ⊢; omega)
  simp only [List.append_nil, List.nil_append] at hfeed
  rw [Expression.reversePolish, hfeed]
  show Arranger.finish ⟨released, kept, b⟩ = _
  rw [finish, hrelease]
  rfl

theorem Content.reversePolish {tokens listing : List Token} (h : Content tokens listing)
    (hload : tokens.length ≤ maxOutput) : Expression.reversePolish tokens = .ok listing :=
  (h {} rfl (by simp) (by simpa [load] using hload)).reversePolish hload

/-- **Expressions are read as the grammar says and have the value of their tree**, if they have at
most 128 tokens, as all texts have that can be read. -/
theorem Group.reversePolish_and_evaluate (g : Group) :
    (g.tokens.length ≤ 128 → Expression.reversePolish g.tokens = .ok g.tree.postOrder) ∧
      ∀ source, tokenize source = .ok g.tokens →
        evaluate source = g.tree.value.bind fun v =>
          if v.isFinite then .ok v else .error .notFinite := by
  have hpolish (hlength : g.tokens.length ≤ 128) :
      Expression.reversePolish g.tokens = .ok g.tree.postOrder := g.content.reversePolish hlength
  refine ⟨hpolish, fun source hsource => ?_⟩
  have hlength := length_le_of_tokenize hsource
  -- the values held at once are no more than the tokens of the listing, and those fit
  have hpeak : g.tree.peak ≤ maxValues :=
    calc g.tree.peak ≤ g.tree.postOrder.length := g.tree.peak_le_length_postOrder
      _ ≤ g.tokens.length := g.content.length_le hlength
      _ ≤ maxValues := hlength
  rw [evaluate, compile, hsource]
  show (Expression.reversePolish g.tokens >>= evaluatePolish) = _
  rw [hpolish hlength]
  exact Tree.evaluatePolish_postOrder g.tree hpeak

/-- The syntax of `-pi^-(pi)!`, where the first sign negates everything and the second one the
group in parentheses alone. -/
def Group.signedPower : Group :=
  .neg (.chain (.mk (.number pi) 0)
    (.more .pow (.neg (.plain (.mk (.group (.chain (.mk (.number pi) 0) .done)) 1))) .done))

theorem Group.reversePolish_and_evaluate_signedPower :
    Expression.reversePolish [.neg, .number pi, .operator .pow, .neg, .opening, .number pi,
        .closing, .factorial]
      = .ok [.number pi, .number pi, .neg, .factorial, .operator .pow, .neg] ∧
    evaluate "-pi^-(pi)!"
      = (Tree.neg (.binary .pow (.number pi) (.factorial (.neg (.number pi))))).value.bind
          fun v => if v.isFinite then .ok v else .error .notFinite := by
  have htree : signedPower.tree
      = .neg (.binary .pow (.number pi) (.factorial (.neg (.number pi)))) := by
    simp [signedPower, Group.tree, Tail.operands, Signed.tree, Marked.tree, Atom.tree,
      Tree.factorials, arrange, splitLast, Operator.isAdditive, Operator.isMultiplicative]
  have htokens : tokenize "-pi^-(pi)!" = .ok signedPower.tokens := by
    refine tokenize_eq_ok_iff.2 ⟨?_, by decide⟩
    simp [Lexeme.cut, Lexeme.scan, Lexeme.next, isAsciiBlank, isLetter, List.takeWhile_cons,
      List.dropWhile_cons]
    rfl
  have hpolish := (Group.reversePolish_and_evaluate signedPower).1 (by decide)
  have hvalue := (Group.reversePolish_and_evaluate signedPower).2 _ htokens
  rw [htree] at hpolish hvalue
  exact ⟨hpolish, hvalue⟩

end DeskShell.Expression
