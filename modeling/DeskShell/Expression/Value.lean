import DeskShell.Expression.Fault

/-!
# Values of expressions

The operations on doubles, each with its domain, and the evaluation of a reverse Polish form on a
stack of values. Angles are in degrees. A result counts only if it is the one value left, and
finite.
-/

set_option autoImplicit false

namespace DeskShell.Expression

def maxValues : Nat := 128

/-- Divisors and cosines below this bound count as zero. -/
def zeroBound : Float := 1e-12

/-- How far the operand of a factorial may be from a whole number. -/
def wholeBound : Float := 1e-6

def maxFactorial : Float := 20.0

/-- From this double on, `2 ^ 53`, every double is whole. -/
def firstAllWhole : Float := 9007199254740992.0

/-! ## Operations -/

def radians (degrees : Float) : Float := degrees * (pi / 180.0)

def Operator.apply (op : Operator) (lhs rhs : Float) : Except Fault Float :=
  match op with
  | add => .ok (lhs + rhs)
  | sub => .ok (lhs - rhs)
  | mul => .ok (lhs * rhs)
  | div => if rhs.abs < zeroBound then .error .divisionByZero else .ok (lhs / rhs)
  | pow => .ok (lhs.pow rhs)

def Function.apply (f : Function) (x : Float) : Except Fault Float :=
  match f with
  | sin => .ok (radians x).sin
  | cos => .ok (radians x).cos
  | tan =>
      if (radians x).cos.abs < zeroBound then .error (.undefinedTangent x)
      else .ok (radians x).tan
  | log => if x ≤ 0.0 then .error .logarithmDomain else .ok x.log
  | sqrt => if x < 0.0 then .error .negativeSquareRoot else .ok x.sqrt

def product (n : Nat) : Float := (List.range' 2 (n - 1)).foldl (fun p i => p * Float.ofNat i) 1.0

def wholePart (x : Float) : Float :=
  if x < firstAllWhole then Float.ofNat x.toUInt64.toNat else x

/-- The factorial of a number close to a whole number from 0 to 20. -/
def factorial (x : Float) : Except Fault Float :=
  if !x.isFinite || x < 0.0 then .error .factorialDomain
  else
    let whole := wholePart (x + 0.5)
    if wholeBound < (x - whole).abs || maxFactorial < whole then .error .factorialDomain
    else .ok (product whole.toUInt64.toNat)

/-! ## The stack of values -/

/-- One step of the evaluation; the stack has the latest value first. -/
def Token.act (token : Token) (stack : List Float) : Except Fault (List Float) :=
  match token with
  | number value =>
      if stack.length < maxValues then .ok (value :: stack) else .error .stackOverflow
  | operator op =>
      match stack with
      | rhs :: lhs :: rest => (op.apply lhs rhs).map (· :: rest)
      | _ => .error (.missingOperands op)
  | factorial =>
      match stack with
      | x :: rest => (Expression.factorial x).map (· :: rest)
      | [] => .error .missingFactorialOperand
  | function f =>
      match stack with
      | x :: rest => (f.apply x).map (· :: rest)
      | [] => .error (.missingArgument f.name)
  | neg =>
      match stack with
      | x :: rest => .ok (-x :: rest)
      | [] => .error (.missingArgument "neg")
  | opening | closing => .error .invalidExpression

def result : List Float → Except Fault Float
  | [value] => if value.isFinite then .ok value else .error .notFinite
  | _ => .error .invalidExpression

def evaluatePolish (tokens : List Token) : Except Fault Float := do
  let stack ← tokens.foldlM (fun stack token => token.act stack) []
  result stack

end DeskShell.Expression
