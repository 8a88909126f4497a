import DeskShell.Proofs.Expression.Tree

/-!
# The grammar of expressions

Expressions as they are written, and how they are read. With `G` for the content of a group, `P`
for an operand, `S` for an operand behind an operator and `A` for an atom:

* `G → neg G | P (op S)*`
* `S → neg S | P`
* `P → A !…!`
* `A → number | ( G ) | f A`

A piece of syntax has its tokens and its tree. The operators of a chain `P (op S)*` are arranged by
their precedence: sums bind weakest, then products, both to the left, and powers bind strongest, to
the right (`arrange`). The sign at the start of a group negates all of the group; a sign behind an
operator negates one operand with its factorials, but a sign in front of a parenthesis negates the
group in parentheses alone.
-/

set_option autoImplicit false

namespace DeskShell.Expression

/-! ## Chains of operators -/

def Operator.isAdditive : Operator → Bool
  | add | sub => true
  | _ => false

def Operator.isMultiplicative : Operator → Bool
  | mul | div => true
  | _ => false

section Chains

variable {α : Type}

/-- The last operator of a list that satisfies `p`: what stands before it, the operator with its
operand, and what stands behind it. -/
def splitLast (p : Operator → Bool) :
    List (Operator × α) → Option (List (Operator × α) × (Operator × α) × List (Operator × α))
  | [] => none
  | x :: rest =>
      match splitLast p rest with
      | some (before, y, after) => some (x :: before, y, after)
      | none => if p x.1 then some ([], x, rest) else none

theorem splitLast_eq_none {p : Operator → Bool} {rest : List (Operator × α)}
    (h : splitLast p rest = none) : ∀ x ∈ rest, p x.1 = false := by
  induction rest with
  | nil => simp
  | cons x rest ih =>
      rw [splitLast] at h
      cases hrest : splitLast p rest with
      | some parts => simp [hrest] at h
      | none =>
          rw [hrest] at h
          have hx : p x.1 = false := by simpa using h
          intro y hy
          rcases List.mem_cons.1 hy with rfl | hy
          · exact hx
          · exact ih hrest y hy

/-- Where there is such an operator, the list falls into the three parts, and there is no such
operator behind it. -/
theorem splitLast_eq_some {p : Operator → Bool} {rest before after : List (Operator × α)}
    {y : Operator × α} (h : splitLast p rest = some (before, y, after)) :
    rest = before ++ y :: after ∧ p y.1 = true ∧ ∀ x ∈ after, p x.1 = false := by
  induction rest generalizing before with
  | nil => simp [splitLast] at h
  | cons x rest ih =>
      rw [splitLast] at h
      cases hrest : splitLast p rest with
      | some parts =>
          obtain ⟨before', y', after'⟩ := parts
          rw [hrest] at h
          simp only [Option.some.injEq, Prod.mk.injEq] at h
          obtain ⟨rfl, rfl, rfl⟩ := h
          obtain ⟨hparts, hy, hafter⟩ := ih hrest
          exact ⟨by rw [hparts, List.cons_append], hy, hafter⟩
      | none =>
          rw [hrest] at h
          by_cases hx : p x.1 = true
          · simp only [hx, if_true, Option.some.injEq, Prod.mk.injEq] at h
            obtain ⟨rfl, rfl, rfl⟩ := h
            exact ⟨rfl, hx, splitLast_eq_none hrest⟩
          · simp [hx] at h

end Chains

/-- The tree of a chain of operands with operators between them. Its root is the last sum or
difference; if there is none, the last product or quotient; if there is none either, the first
power. -/
def arrange (first : Tree) (rest : List (Operator × Tree)) : Tree :=
  match _hsum : splitLast Operator.isAdditive rest with
  | some (before, (op, operand), after) =>
      .binary op (arrange first before) (arrange operand after)
  | none =>
      match _hproduct : splitLast Operator.isMultiplicative rest with
      | some (before, (op, operand), after) =>
          .binary op (arrange first before) (arrange operand after)
      | none =>
          match rest with
          | [] => first
          | (op, operand) :: after => .binary op first (arrange operand after)
termination_by rest.length
decreasing_by
  · rw [(splitLast_eq_some _hsum).1, List.length_append, List.length_cons]
    omega
  · rw [(splitLast_eq_some _hsum).1, List.length_append, List.length_cons]
    omega
  · rw [(splitLast_eq_some _hproduct).1, List.length_append, List.length_cons]
    omega
  · rw [(splitLast_eq_some _hproduct).1, List.length_append, List.length_cons]
    omega
  · simp

/-! ## Syntax -/

mutual

/-- The content of a group: `G → neg G | P (op S)*`. -/
inductive Group
  | neg (rest : Group)
  | chain (first : Marked) (rest : Tail)

/-- The operators of a chain with the operands behind them: `(op S)*`. -/
inductive Tail
  | done
  | more (op : Operator) (operand : Signed) (rest : Tail)

/-- An operand behind an operator: `S → neg S | P`. -/
inductive Signed
  | neg (operand : Signed)
  | plain (operand : Marked)

/-- An atom with factorial marks behind it: `P → A !…!`. -/
inductive Marked
  | mk (atom : Atom) (marks : Nat)

/-- `A → number | ( G ) | f A`. -/
inductive Atom
  | number (value : Float)
  | group (content : Group)
  | call (f : Function) (argument : Atom)

end

def Tree.factorials : Nat → Tree → Tree
  | 0, t => t
  | n + 1, t => .factorial (factorials n t)

/-! ## Tokens -/

mutual

def Group.tokens : Group → List Token
  | .neg g => .neg :: g.tokens
  | .chain first rest => first.tokens ++ rest.tokens

def Tail.tokens : Tail → List Token
  | .done => []
  | .more op s rest => .operator op :: (s.tokens ++ rest.tokens)

def Signed.tokens : Signed → List Token
  | .neg s => .neg :: s.tokens
  | .plain p => p.tokens

def Marked.tokens : Marked → List Token
  | .mk a n => a.tokens ++ List.replicate n .factorial

def Atom.tokens : Atom → List Token
  | .number v => [.number v]
  | .group g => .opening :: (g.tokens ++ [.closing])
  | .call f a => .function f :: a.tokens

end

/-! ## Trees -/

mutual

/-- The tree of the content of a group: a sign negates all that follows it. -/
def Group.tree : Group → Tree
  | .neg g => .neg g.tree
  | .chain first rest => arrange first.tree rest.operands

def Tail.operands : Tail → List (Operator × Tree)
  | .done => []
  | .more op s rest => (op, s.tree) :: rest.operands

/-- The tree of an operand behind an operator: a sign negates the operand with its factorials, but
in front of a parenthesis it negates the group alone. -/
def Signed.tree : Signed → Tree
  | .plain p => p.tree
  | .neg (.plain (.mk (.group g) n)) => .factorials n (.neg g.tree)
  | .neg s => .neg s.tree

def Marked.tree : Marked → Tree
  | .mk a n => .factorials n a.tree

def Atom.tree : Atom → Tree
  | .number v => .number v
  | .group g => g.tree
  | .call f a => .function f a.tree

end

end DeskShell.Expression
