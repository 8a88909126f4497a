import DeskShell.Expression.Value

/-!
# Expression trees

An expression as a tree, its listing in post-order, and its value by recursion on the tree. The
machine of `Expression.Value` runs the listing on a stack and gets the value of the tree on top of
whatever lay there (`foldlM_act_postOrder`), as long as the stack has room for the values that the
tree needs at once (`peak`).
-/

set_option autoImplicit false

namespace DeskShell.Expression

/-- An expression without its spelling. -/
inductive Tree
  | number (value : Float)
  | binary (op : Operator) (left right : Tree)
  | factorial (operand : Tree)
  | function (f : Function) (operand : Tree)
  | neg (operand : Tree)
  deriving Repr, DecidableEq

namespace Tree

/-- The tokens of a tree, operands before the operation that is applied to them. -/
def postOrder : Tree → List Token
  | number v => [.number v]
  | binary op l r => l.postOrder ++ r.postOrder ++ [.operator op]
  | factorial t => t.postOrder ++ [.factorial]
  | function f t => t.postOrder ++ [.function f]
  | neg t => t.postOrder ++ [.neg]

/-- The value of a tree, left operands before right ones. -/
def value : Tree → Except Fault Float
  | number v => .ok v
  | binary op l r => do
      let x ← l.value
      let y ← r.value
      op.apply x y
  | factorial t => do
      let x ← t.value
      Expression.factorial x
  | function f t => do
      let x ← t.value
      f.apply x
  | neg t => do
      let x ← t.value
      .ok (-x)

/-- The largest number of values that are held at once while a tree is evaluated: the right operand
is evaluated while the value of the left one waits. -/
def peak : Tree → Nat
  | number _ => 1
  | binary _ l r => max l.peak (r.peak + 1)
  | factorial t | function _ t | neg t => t.peak

theorem peak_le_length_postOrder (t : Tree) : t.peak ≤ t.postOrder.length := by
  induction t with
  | number v => exact Nat.le_refl 1
  | binary op l r ihl ihr =>
      simp only [peak, postOrder, List.length_append, List.length_singleton]
      omega
  | factorial t ih | function f t ih | neg t ih =>
      simp only [peak, postOrder, List.length_append, List.length_singleton]
      omega

/-! ## Running the listing -/

theorem foldlM_act_append_singleton {tokens : List Token} {token : Token} {stack : List Float}
    {x : Except Fault Float} (h : tokens.foldlM (fun s t => t.act s) stack = x.map (· :: stack)) :
    (tokens ++ [token]).foldlM (fun s t => t.act s) stack
      = x.bind fun v => token.act (v :: stack) := by
  rw [List.foldlM_append, h]
  cases x with
  | error fault => rfl
  | ok v =>
      show (token.act (v :: stack) >>= fun s => pure s) = _
      rw [bind_pure]
      rfl

/-- **The listing computes the value of the tree** on top of whatever lies on the stack; the first
node that fails decides the fault. -/
theorem foldlM_act_postOrder (t : Tree) (stack : List Float)
    (h : stack.length + t.peak ≤ maxValues) :
    t.postOrder.foldlM (fun s token => token.act s) stack = t.value.map (· :: stack) := by
  induction t generalizing stack with
  | number v =>
      have hroom : stack.length < maxValues := h
      show (Token.act (.number v) stack >>= fun s => pure s) = _
      rw [bind_pure, Token.act, if_pos hroom]
      rfl
  | binary op l r ihl ihr =>
      simp only [peak] at h
      have hl := ihl stack (by omega)
      rw [postOrder, List.append_assoc, List.foldlM_append, hl, value]
      cases l.value with
      | error fault => rfl
      | ok x =>
          have hr := ihr (x :: stack) (by simp only [List.length_cons]; omega)
          show (r.postOrder ++ [Token.operator op]).foldlM (fun s t => t.act s) (x :: stack) = _
          rw [foldlM_act_append_singleton hr]
          cases r.value with
          | error fault => rfl
          | ok y => rfl
  | factorial t ih =>
      rw [postOrder, foldlM_act_append_singleton (ih stack h), value]
      cases t.value <;> rfl
  | function f t ih =>
      rw [postOrder, foldlM_act_append_singleton (ih stack h), value]
      cases t.value <;> rfl
  | neg t ih =>
      rw [postOrder, foldlM_act_append_singleton (ih stack h), value]
      cases t.value <;> rfl

/-- The value of a listing is the value of its tree, if that is finite. -/
theorem evaluatePolish_postOrder (t : Tree) (h : t.peak ≤ maxValues) :
    evaluatePolish t.postOrder = t.value.bind fun v =>
      if v.isFinite then .ok v else .error .notFinite := by
  rw [evaluatePolish, foldlM_act_postOrder t [] (by simpa using h)]
  cases t.value <;> rfl

end Tree

end DeskShell.Expression
