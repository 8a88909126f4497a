import DeskShell.Proofs.Expression.Failing
import DeskShell.Proofs.Expression.Tree

/-!
# Listings and their trees

Not every list of tokens is the post-order listing of a tree, but where it is, of one tree only
(`Tree.eq_of_append_postOrder`), and the machine that evaluates a list succeeds on nothing else: a
stack that it reaches holds the values of trees whose listings, one after the other, are the tokens
read so far (`Stacked`). So evaluating a list and evaluating its tree is the same in both
directions, and a listing can only fail where a node of its tree fails (`evaluatePolish_tree`).
-/

set_option autoImplicit false

namespace DeskShell.Expression

/-! ## Faults of operations -/

def faultOf? {α : Type} : Except Fault α → Option Fault
  | .error fault => some fault
  | .ok _ => none

theorem faultOf?_eq_some_iff {α : Type} {x : Except Fault α} {fault : Fault} :
    faultOf? x = some fault ↔ x = .error fault := by
  cases x with
  | error other => simp [faultOf?]
  | ok a => simp [faultOf?]

theorem faultOf?_eq_none_iff {α : Type} {x : Except Fault α} :
    faultOf? x = none ↔ ∃ a, x = .ok a := by
  cases x with
  | error fault => simp [faultOf?]
  | ok a => simp [faultOf?]

theorem Operator.phase_of_apply {op : Operator} {x y : Float} {fault : Fault}
    (h : op.apply x y = .error fault) : fault.phase = .domain := by
  cases op with
  | div =>
      rw [apply] at h
      split at h
      · cases h
        rfl
      · cases h
  | add | sub | mul | pow => cases h

theorem Function.phase_of_apply {f : Function} {x : Float} {fault : Fault}
    (h : f.apply x = .error fault) : fault.phase = .domain := by
  cases f with
  | sin | cos => cases h
  | tan | log | sqrt =>
      rw [apply] at h
      split at h
      · cases h
        rfl
      · cases h

theorem phase_of_factorial {x : Float} {fault : Fault} (h : factorial x = .error fault) :
    fault.phase = .domain := by
  have hfault : fault = .factorialDomain := by
    unfold factorial at h
    split at h
    · cases h
      rfl
    · dsimp only at h
      split at h
      · cases h
        rfl
      · cases h
  rw [hfault]
  rfl

namespace Tree

/-! ## Nodes -/

def token : Tree → Token
  | number v => .number v
  | binary op _ _ => .operator op
  | factorial _ => .factorial
  | function f _ => .function f
  | neg _ => .neg

/-- The nodes of a tree, each as the tree below it, in the order of the listing. -/
def nodes : Tree → List Tree
  | number v => [number v]
  | binary op l r => l.nodes ++ r.nodes ++ [binary op l r]
  | factorial t => t.nodes ++ [factorial t]
  | function f t => t.nodes ++ [function f t]
  | neg t => t.nodes ++ [neg t]

/-- The fault of the operation at the root itself, on the values of its operands. -/
def fault? : Tree → Option Fault
  | number _ | neg _ => none
  | binary op l r =>
      match l.value, r.value with
      | .ok x, .ok y => faultOf? (op.apply x y)
      | _, _ => none
  | factorial t =>
      match t.value with
      | .ok x => faultOf? (Expression.factorial x)
      | .error _ => none
  | function f t =>
      match t.value with
      | .ok x => faultOf? (f.apply x)
      | .error _ => none

theorem map_token_nodes (t : Tree) : t.nodes.map token = t.postOrder := by
  induction t with
  | number v => rfl
  | binary op l r ihl ihr => simp [nodes, postOrder, token, ihl, ihr]
  | factorial t ih | function f t ih | neg t ih => simp [nodes, postOrder, token, ih]

/-- **A tree fails as its first node that fails.** -/
theorem findSome?_nodes (t : Tree) : t.nodes.findSome? fault? = faultOf? t.value := by
  induction t with
  | number v => rfl
  | binary op l r ihl ihr =>
      rw [nodes, List.findSome?_append, List.findSome?_append, ihl, ihr, value]
      cases hl : l.value with
      | error fault => rfl
      | ok x =>
          cases hr : r.value with
          | error fault => rfl
          | ok y =>
              -- both operands have values, so the node itself decides
              show [binary op l r].findSome? fault? = faultOf? (op.apply x y)
              simp [fault?, hl, hr]
  | factorial t ih =>
      rw [nodes, List.findSome?_append, ih, value]
      cases ht : t.value with
      | error fault => rfl
      | ok x =>
          show [factorial t].findSome? fault? = faultOf? (Expression.factorial x)
          simp [fault?, ht]
  | function f t ih =>
      rw [nodes, List.findSome?_append, ih, value]
      cases ht : t.value with
      | error fault => rfl
      | ok x =>
          show [function f t].findSome? fault? = faultOf? (f.apply x)
          simp [fault?, ht]
  | neg t ih =>
      rw [nodes, List.findSome?_append, ih, value]
      cases t.value <;> rfl

theorem phase_of_fault? {t : Tree} {fault : Fault} (h : t.fault? = some fault) :
    fault.phase = .domain := by
  cases t with
  | number v | neg t => cases h
  | binary op l r =>
      simp only [fault?] at h
      split at h
      · exact Operator.phase_of_apply (faultOf?_eq_some_iff.1 h)
      · cases h
  | factorial t =>
      simp only [fault?] at h
      split at h
      · exact phase_of_factorial (faultOf?_eq_some_iff.1 h)
      · cases h
  | function f t =>
      simp only [fault?] at h
      split at h
      · exact Function.phase_of_apply (faultOf?_eq_some_iff.1 h)
      · cases h

theorem phase_of_value {t : Tree} {fault : Fault} (h : t.value = .error fault) :
    fault.phase = .domain := by
  have hfirst : t.nodes.findSome? fault? = some fault := by
    rw [findSome?_nodes, faultOf?_eq_some_iff, h]
  obtain ⟨node, -, hnode⟩ := List.exists_of_findSome?_eq_some hfirst
  exact phase_of_fault? hnode

/-! ## One tree for a listing -/

/-- **Only one tree ends a list of tokens**: a listing is found from its last token backwards, since
the last token is the root. -/
theorem eq_of_append_postOrder {t t' : Tree} {before before' : List Token}
    (h : before ++ t.postOrder = before' ++ t'.postOrder) : t = t' ∧ before = before' := by
  induction t generalizing t' before before' with
  | number v =>
      cases t' <;> simp [postOrder, ← List.append_assoc] at h
      simp [h]
  | binary op l r ihl ihr =>
      cases t' <;> simp [postOrder, ← List.append_assoc] at h
      -- the operands end what stands before the root, the right one first
      obtain ⟨hoperands, rfl⟩ := h
      obtain ⟨rfl, hleft⟩ := ihr hoperands
      obtain ⟨rfl, hbefore⟩ := ihl hleft
      exact ⟨rfl, hbefore⟩
  | factorial t ih =>
      cases t' <;> simp [postOrder, ← List.append_assoc] at h
      obtain ⟨rfl, hbefore⟩ := ih h
      exact ⟨rfl, hbefore⟩
  | function f t ih =>
      cases t' <;> simp [postOrder, ← List.append_assoc] at h
      obtain ⟨hoperand, rfl⟩ := h
      obtain ⟨rfl, hbefore⟩ := ih hoperand
      exact ⟨rfl, hbefore⟩
  | neg t ih =>
      cases t' <;> simp [postOrder, ← List.append_assoc] at h
      obtain ⟨rfl, hbefore⟩ := ih h
      exact ⟨rfl, hbefore⟩

end Tree

/-! ## Steps of the evaluation -/

/-- What a token that succeeds does to the stack: a number needs room, and everything else takes its
operands off and puts its value in their place. -/
inductive Token.Acts : Token → List Float → List Float → Prop
  | number {v : Float} {stack : List Float} (hroom : stack.length < maxValues) :
      Acts (.number v) stack (v :: stack)
  | operator {op : Operator} {x y v : Float} {rest : List Float} (h : op.apply x y = .ok v) :
      Acts (.operator op) (y :: x :: rest) (v :: rest)
  | factorial {x v : Float} {rest : List Float} (h : Expression.factorial x = .ok v) :
      Acts .factorial (x :: rest) (v :: rest)
  | function {f : Function} {x v : Float} {rest : List Float} (h : f.apply x = .ok v) :
      Acts (.function f) (x :: rest) (v :: rest)
  | neg {x : Float} {rest : List Float} : Acts .neg (x :: rest) (-x :: rest)

theorem Token.acts_of_act {token : Token} {stack stack' : List Float}
    (h : token.act stack = .ok stack') : token.Acts stack stack' := by
  revert h
  fun_cases Token.act token stack with
  | case1 stack v hroom =>
      intro h
      cases h
      exact .number hroom
  | case3 op y x rest =>
      intro h
      obtain ⟨v, hvalue, rfl⟩ := map_eq_ok h
      exact .operator hvalue
  | case5 x rest =>
      intro h
      obtain ⟨v, hvalue, rfl⟩ := map_eq_ok h
      exact .factorial hvalue
  | case7 f x rest =>
      intro h
      obtain ⟨v, hvalue, rfl⟩ := map_eq_ok h
      exact .function hvalue
  | case9 x rest =>
      intro h
      cases h
      exact .neg
  -- without room or without operands there is a fault
  | case2 | case4 | case6 | case8 | case10 | case11 | case12 =>
      intro h
      cases h

/-! ## From a run back to trees -/

/-- The values on a stack are those of trees, each of which had room above the values below it; the
listings of the trees, one after the other, are `tokens`. -/
inductive Stacked : List Token → List Float → Prop
  | empty : Stacked [] []
  | push {tokens : List Token} {stack : List Float} {t : Tree} {v : Float} :
      Stacked tokens stack → t.value = .ok v → stack.length + t.peak ≤ maxValues →
      Stacked (tokens ++ t.postOrder) (v :: stack)

theorem Stacked.unary {tokens : List Token} {stack : List Float} {x v : Float} {token : Token}
    (h : Stacked tokens (x :: stack)) (node : Tree → Tree)
    (hlisting : ∀ t, (node t).postOrder = t.postOrder ++ [token])
    (hpeak : ∀ t, (node t).peak = t.peak)
    (hvalue : ∀ t, t.value = .ok x → (node t).value = .ok v) :
    Stacked (tokens ++ [token]) (v :: stack) := by
  cases h with
  | @push before _ t _ hbelow ht hroom =>
      have hnode := Stacked.push hbelow (hvalue t ht) ((hpeak t).symm ▸ hroom)
      rwa [hlisting, ← List.append_assoc] at hnode

/-- A node with two operands takes the place of both, the latest being the right one. -/
theorem Stacked.binary {tokens : List Token} {stack : List Float} {x y v : Float} {op : Operator}
    (h : Stacked tokens (y :: x :: stack)) (hvalue : op.apply x y = .ok v) :
    Stacked (tokens ++ [.operator op]) (v :: stack) := by
  cases h with
  | @push _ _ r _ hbelow hr hrroom =>
      cases hbelow with
      | @push before _ l _ hbelow hl hlroom =>
          have htree : (Tree.binary op l r).value = .ok v := by
            rw [Tree.value, hl, hr]
            exact hvalue
          -- the right operand needed its room above the value of the left one
          have hroom : stack.length + (Tree.binary op l r).peak ≤ maxValues := by
            simp only [Tree.peak, List.length_cons] at hlroom hrroom ⊢
            omega
          have hnode := Stacked.push hbelow htree hroom
          rwa [Tree.postOrder, ← List.append_assoc, ← List.append_assoc] at hnode

/-- **One token** is a leaf, or the root above the latest trees. -/
theorem Stacked.act {tokens : List Token} {stack stack' : List Float} {token : Token}
    (h : Stacked tokens stack) (hact : token.act stack = .ok stack') :
    Stacked (tokens ++ [token]) stack' := by
  cases Token.acts_of_act hact with
  | @number v _ hroom => exact .push (t := .number v) h rfl hroom
  | operator hvalue => exact h.binary hvalue
  | factorial hvalue =>
      refine h.unary .factorial (fun _ => rfl) (fun _ => rfl) fun t ht => ?_
      rw [Tree.value, ht]
      exact hvalue
  | @function f _ _ _ hvalue =>
      refine h.unary (.function f) (fun _ => rfl) (fun _ => rfl) fun t ht => ?_
      rw [Tree.value, ht]
      exact hvalue
  | neg =>
      refine h.unary .neg (fun _ => rfl) (fun _ => rfl) fun t ht => ?_
      rw [Tree.value, ht]
      rfl

/-- **A run.** -/
theorem Stacked.run {tokens more : List Token} {stack stack' : List Float}
    (h : Stacked tokens stack)
    (hrun : more.foldlM (fun stack token => Token.act token stack) stack = .ok stack') :
    Stacked (tokens ++ more) stack' := by
  induction more generalizing tokens stack with
  | nil =>
      cases hrun
      rwa [List.append_nil]
  | cons token more ih =>
      rw [List.foldlM_cons] at hrun
      obtain ⟨next, hact, hrest⟩ := bind_eq_ok hrun
      rw [← List.singleton_append, ← List.append_assoc]
      exact ih (h.act hact) hrest

/-- A value alone on the stack is the value of one tree. -/
theorem Stacked.tree {tokens : List Token} {v : Float} (h : Stacked tokens [v]) :
    ∃ t : Tree, t.postOrder = tokens ∧ t.peak ≤ maxValues ∧ t.value = .ok v := by
  cases h with
  | push hbelow hvalue hroom =>
      next t =>
      cases hbelow with
      | empty => exact ⟨t, rfl, by simpa using hroom, hvalue⟩

/-! ## Lists of tokens -/

theorem result_eq_ok_iff {stack : List Float} {v : Float} :
    result stack = .ok v ↔ stack = [v] ∧ v.isFinite = true := by
  constructor
  · intro h
    unfold result at h
    split at h
    · split at h
      · next hfinite =>
          cases h
          exact ⟨rfl, hfinite⟩
      · cases h
    · cases h
  · rintro ⟨rfl, hfinite⟩
    rw [result, if_pos hfinite]

theorem tree_of_evaluatePolish {tokens : List Token} {v : Float}
    (h : evaluatePolish tokens = .ok v) : ∃ t : Tree, t.postOrder = tokens ∧
      t.peak ≤ maxValues ∧ t.value = .ok v ∧ v.isFinite = true := by
  obtain ⟨stack, hrun, hresult⟩ := bind_eq_ok h
  obtain ⟨rfl, hfinite⟩ := result_eq_ok_iff.1 hresult
  obtain ⟨t, hlisting, hpeak, hvalue⟩ := (Stacked.empty.run hrun).tree
  exact ⟨t, hlisting, hpeak, hvalue, hfinite⟩

section Bounded

variable {t : Tree} (hpeak : t.peak ≤ maxValues)
include hpeak

theorem Tree.evaluatePolish_of_value {v : Float} (h : t.value = .ok v) :
    evaluatePolish t.postOrder = if v.isFinite then .ok v else .error .notFinite := by
  rw [t.evaluatePolish_postOrder hpeak, h]
  rfl

theorem Tree.evaluatePolish_of_fault {fault : Fault}
    (h : t.nodes.findSome? Tree.fault? = some fault) :
    evaluatePolish t.postOrder = .error fault := by
  rw [t.findSome?_nodes, faultOf?_eq_some_iff] at h
  rw [t.evaluatePolish_postOrder hpeak, h]
  rfl

/-- A listing can only fail outside the domain of an operation, or with a value that does not
count. -/
theorem Tree.phase_of_evaluatePolish {fault : Fault}
    (h : evaluatePolish t.postOrder = .error fault) : fault.phase = .domain := by
  cases hvalue : t.value with
  | error other =>
      rw [t.evaluatePolish_postOrder hpeak, hvalue] at h
      have hother : other = fault := Except.error.inj h
      exact hother ▸ phase_of_value hvalue
  | ok v =>
      rw [t.evaluatePolish_of_value hpeak hvalue] at h
      split at h
      · cases h
      · cases h
        rfl

end Bounded

/-- **Evaluating a list of tokens is evaluating its tree.** A list has a value if and only if it is
the listing of a tree, which never needs room for more than 128 values and whose value is that one
and finite; the tree is the only one with this listing. On the listing of a tree within the bound,
the first node that fails decides the fault, a value that is not finite is a fault of its own, and
there is no other. -/
theorem evaluatePolish_tree (tokens : List Token) :
    (∀ v, evaluatePolish tokens = .ok v ↔ ∃ t : Tree, t.postOrder = tokens ∧
      t.peak ≤ 128 ∧ t.value = .ok v ∧ v.isFinite = true) ∧
    ∀ t : Tree, t.postOrder = tokens →
      t.nodes.map Tree.token = tokens ∧ (∀ t' : Tree, t'.postOrder = tokens → t' = t) ∧
      (t.peak ≤ 128 →
        (∀ fault, t.nodes.findSome? Tree.fault? = some fault →
          evaluatePolish tokens = .error fault) ∧
        (t.nodes.findSome? Tree.fault? = none → ∃ v, t.value = .ok v ∧
          evaluatePolish tokens = if v.isFinite then .ok v else .error .notFinite) ∧
        Fault.notFinite.message = "Result is not a finite number." ∧
        ∀ fault, evaluatePolish tokens = .error fault → fault.phase = .domain) := by
  refine ⟨fun v => ⟨tree_of_evaluatePolish, ?_⟩, ?_⟩
  · rintro ⟨t, rfl, hpeak, hvalue, hfinite⟩
    rw [t.evaluatePolish_of_value hpeak hvalue, if_pos hfinite]
  · rintro t rfl
    refine ⟨t.map_token_nodes, fun t' h => ?_, fun hpeak => ⟨?_, ?_, rfl, ?_⟩⟩
    · have hsame : [] ++ t'.postOrder = [] ++ t.postOrder := by rw [h]
      exact (Tree.eq_of_append_postOrder hsame).1
    · intro fault h
      exact t.evaluatePolish_of_fault hpeak h
    · intro h
      rw [t.findSome?_nodes, faultOf?_eq_none_iff] at h
      obtain ⟨v, hvalue⟩ := h
      exact ⟨v, hvalue, t.evaluatePolish_of_value hpeak hvalue⟩
    · intro fault h
      exact t.phase_of_evaluatePolish hpeak h

/-- The listing of `sqrt(-pi) + pi / 0`, in which two nodes fail and the square root is the first of
them, and a number that is not finite. -/
theorem evaluatePolish_tree_of_two_faults :
    let t : Tree := .binary .add (.function .sqrt (.neg (.number pi)))
      (.binary .div (.number pi) (.number (Float.ofBits 0)))
    let infinite : Tree := .number (Float.ofBits 0x7FF0000000000000)
    t.peak ≤ 128 ∧ infinite.peak ≤ 128 ∧
      t.nodes.findSome? Tree.fault? = some .negativeSquareRoot ∧
      evaluatePolish t.postOrder = .error .negativeSquareRoot ∧
      infinite.nodes.findSome? Tree.fault? = none ∧
      evaluatePolish infinite.postOrder = .error .notFinite ∧
      Fault.notFinite.phase = .domain := by
  intro t infinite
  have hpeak : t.peak ≤ 128 := by decide
  have hpeak' : infinite.peak ≤ 128 := by decide
  have hfirst : t.nodes.findSome? Tree.fault? = some .negativeSquareRoot := by rfl
  have hnone : infinite.nodes.findSome? Tree.fault? = none := by rfl
  obtain ⟨-, -, hbound⟩ := (evaluatePolish_tree t.postOrder).2 t rfl
  obtain ⟨-, -, hbound'⟩ := (evaluatePolish_tree infinite.postOrder).2 infinite rfl
  obtain ⟨hfault, -, -, -⟩ := hbound hpeak
  obtain ⟨-, hvalue, -, hphase⟩ := hbound' hpeak'
  obtain ⟨v, hv, hresult⟩ := hvalue hnone
  cases hv
  have hinfinite : evaluatePolish infinite.postOrder = .error .notFinite := by
    rw [hresult]
    rfl
  exact ⟨hpeak, hpeak', hfirst, hfault _ hfirst, hnone, hinfinite, hphase _ hinfinite⟩

end DeskShell.Expression
