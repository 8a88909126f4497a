import DeskShell.Expression.Token
import DeskShell.Decimal.Fixed

/-!
# Faults of an expression

What can be wrong with an expression, one constructor a cause, and what is said about it. A fault
belongs to a `Phase`; only those of the lexical phase have a position, a byte offset into the
source.
-/

set_option autoImplicit false

namespace DeskShell.Expression

inductive Phase
  /-- Text that is no token. -/
  | lexical
  /-- Tokens that are no expression. -/
  | syntactic
  /-- An operand outside the domain of an operation. -/
  | domain
  /-- An operation with too few operands. -/
  | arity
  /-- A bound on the size of an expression. -/
  | capacity
  deriving Repr, DecidableEq

inductive Fault
  | invalidNumber (position : Nat)
  | numberOutOfRange (position : Nat)
  | unknownWord (word : String) (position : Nat)
  | invalidCharacter (c : Char) (position : Nat)
  | tooLong
  | mismatchedParentheses
  | tooComplex
  | stackOverflow
  | missingOperands (op : Operator)
  | missingFactorialOperand
  | missingArgument (name : String)
  | invalidExpression
  | divisionByZero
  | factorialDomain
  | undefinedTangent (degrees : Float)
  | logarithmDomain
  | negativeSquareRoot
  | notFinite
  deriving Repr, DecidableEq

namespace Fault

def phase : Fault → Phase
  | invalidNumber _ | numberOutOfRange _ | unknownWord _ _ | invalidCharacter _ _ => .lexical
  | tooLong | tooComplex | stackOverflow => .capacity
  | mismatchedParentheses | invalidExpression => .syntactic
  | missingOperands _ | missingFactorialOperand | missingArgument _ => .arity
  | divisionByZero | factorialDomain | undefinedTangent _ | logarithmDomain
  | negativeSquareRoot | notFinite => .domain

/-- The byte offset of a lexical fault. -/
def position? : Fault → Option Nat
  | invalidNumber p | numberOutOfRange p | unknownWord _ p | invalidCharacter _ p => some p
  | _ => none

def message : Fault → String
  | invalidNumber p => s!"Invalid number near position {p}."
  | numberOutOfRange p => s!"Number out of range near position {p}."
  | unknownWord word p => s!"Unknown token '{word}' near position {p}."
  | invalidCharacter c p => s!"Invalid character '{c}' at position {p}."
  | tooLong => "Expression too long."
  | mismatchedParentheses => "Mismatched parentheses."
  | tooComplex => "Expression too complex."
  | stackOverflow => "Evaluation stack overflow."
  | missingOperands op => s!"Operator '{op.symbol}' missing operands."
  | missingFactorialOperand => "Factorial requires an operand."
  | missingArgument name => s!"Function '{name}' requires an operand."
  | invalidExpression => "Invalid expression."
  | divisionByZero => "Division by zero."
  | factorialDomain => "Invalid input for factorial."
  | undefinedTangent degrees => s!"Undefined tangent for {Decimal.fixed 4 degrees} degrees."
  | logarithmDomain => "Logarithm domain error."
  | negativeSquareRoot => "Square root of negative number."
  | notFinite => "Result is not a finite number."

/-- Exactly the lexical faults have a position. -/
theorem position?_isSome_iff (f : Fault) : f.position?.isSome ↔ f.phase = .lexical := by
  cases f <;> simp [position?, phase]

end Fault

end DeskShell.Expression
