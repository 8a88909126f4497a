import DeskShell.Expression.Fault

/-!
# Reverse Polish form

`reversePolish` brings the tokens of an expression into post-order with one stack of held
operators. Binary operators wait for those that bind more strongly; a function waits for its
argument; the sign `neg` comes in two kinds. At the start of a group it negates all that follows up
to the end of the group (`Held.groupSign`). Right behind a binary operator, or behind another such
sign, it negates the one operand that follows (`Held.operandSign`).

Every step either appends to the output, or moves between the output and the stack, and both are
bounded.
-/

set_option autoImplicit false

namespace DeskShell.Expression

def maxOutput : Nat := 128

def maxHeld : Nat := 128

/-! ## Held operators -/

/-- What can wait on the stack. -/
inductive Held
  | operator (op : Operator)
  | factorial
  | function (f : Function)
  /-- A sign that negates the rest of its group. -/
  | groupSign
  /-- A sign that negates one operand. -/
  | operandSign
  | opening
  deriving Repr, DecidableEq

namespace Held

def token : Held → Token
  | operator op => .operator op
  | factorial => .factorial
  | function f => .function f
  | groupSign | operandSign => .neg
  | opening => .opening

/-- How strongly an operator binds what stands on its left: of two equal operators that group to
the right, the second one binds more strongly. -/
def leftPower : Nat × Associativity → Nat
  | (precedence, .left) => 2 * precedence
  | (precedence, .right) => 2 * precedence + 1

/-- How strongly an operator binds what stands on its right. -/
def rightPower : Nat × Associativity → Nat
  | (precedence, .left) => 2 * precedence + 1
  | (precedence, .right) => 2 * precedence

/-- Whether a held operator goes to the output before an incoming binary operator (`incoming` is
`some op`) or factorial (`none`) is held. A function takes the operand that has just ended; the
sign of an operand waits for a factorial, which belongs to the operand; the sign of a group waits
for the end of the group. -/
def yieldsTo (incoming : Option Operator) : Held → Bool
  | operator op =>
      let power := leftPower (incoming.elim (4, .right) fun o => (o.precedence, o.associativity))
      power < rightPower (op.precedence, op.associativity)
  | factorial =>
      let power := leftPower (incoming.elim (4, .right) fun o => (o.precedence, o.associativity))
      power < rightPower (4, .right)
  | function _ => true
  | operandSign => incoming.isSome
  | groupSign | opening => false

/-- Whether a held operator takes the group that has just been closed as its operand. -/
def ownsGroup : Held → Bool
  | function _ | operandSign => true
  | _ => false

end Held

/-! ## The stack machine -/

/-- The state between two tokens. -/
structure Arranger where
  /-- The output so far, in order. -/
  output : List Token := []
  /-- The held operators, the latest first. -/
  held : List Held := []
  /-- Whether the last token was a binary operator or the sign of an operand. -/
  afterOperator : Bool := false
  deriving Repr, DecidableEq

namespace Arranger

def emit (s : Arranger) (tokens : List Token) : Except Fault Arranger :=
  if s.output.length + tokens.length ≤ maxOutput then
    .ok { s with output := s.output ++ tokens }
  else .error .tooComplex

def hold (s : Arranger) (h : Held) : Except Fault Arranger :=
  if s.held.length < maxHeld then .ok { s with held := h :: s.held } else .error .tooComplex

/-- Send the held operators to the output as long as they satisfy `p`. -/
def release (s : Arranger) (p : Held → Bool) : Except Fault Arranger :=
  { s with held := s.held.dropWhile p }.emit ((s.held.takeWhile p).map Held.token)

/-- Send the latest held operator to the output if it takes the group that has been closed. -/
def releaseOwner (s : Arranger) : Except Fault Arranger :=
  match s.held with
  | h :: rest => if h.ownsGroup then { s with held := rest }.emit [h.token] else .ok s
  | [] => .ok s

/-- Close a group: release what the group holds, and then its owner. -/
def close (s : Arranger) : Except Fault Arranger := do
  let s ← s.release (· != .opening)
  match s.held with
  | [] => .error .mismatchedParentheses
  | _ :: outer => releaseOwner { s with held := outer }

def feed (s : Arranger) (token : Token) : Except Fault Arranger :=
  let after := { s with afterOperator := false }
  match token with
  | .number _ => after.emit [token]
  | .function f => after.hold (.function f)
  | .neg =>
      if s.afterOperator then { s with afterOperator := true }.hold .operandSign
      else after.hold .groupSign
  | .opening => after.hold .opening
  | .operator op => do
      let s ← { s with afterOperator := true }.release (Held.yieldsTo (some op))
      s.hold (.operator op)
  | .factorial => do
      let s ← after.release (Held.yieldsTo none)
      s.hold .factorial
  | .closing => after.close

def feedAll (s : Arranger) (tokens : List Token) : Except Fault Arranger := tokens.foldlM feed s

/-- The output when all tokens have been taken in: everything that is still held is released, and
an open group is a fault. -/
def finish (s : Arranger) : Except Fault (List Token) := do
  let s ← s.release (· != .opening)
  if s.held.isEmpty then .ok s.output else .error .mismatchedParentheses

end Arranger

/-- The tokens of an expression in post-order, without parentheses. -/
def reversePolish (tokens : List Token) : Except Fault (List Token) := do
  let s ← Arranger.feedAll {} tokens
  s.finish

end DeskShell.Expression
