import DeskShell.Decimal.Shortest

/-!
# Tokens of an expression

An expression is a list of tokens: numbers, infix operators, the factorial mark, named functions,
the sign `neg` and parentheses. The sign is written `-` like subtraction; which of the two a `-` is
depends on the token before it, and `Token.endsOperand` is what decides.

The same tokens without parentheses, read in post-order, are the reverse Polish form.
-/

set_option autoImplicit false

namespace DeskShell.Expression

/-! ## Operators and functions -/

/-- Grouping of a chain of operators of one precedence. -/
inductive Associativity
  /-- `a - b - c` is `(a - b) - c`. -/
  | left
  /-- `a ^ b ^ c` is `a ^ (b ^ c)`. -/
  | right
  deriving Repr, DecidableEq

inductive Operator
  | add
  | sub
  | mul
  | div
  | pow
  deriving Repr, DecidableEq

namespace Operator

def symbol : Operator → Char
  | add => '+'
  | sub => '-'
  | mul => '*'
  | div => '/'
  | pow => '^'

def ofSymbol? : Char → Option Operator
  | '+' => some add
  | '-' => some sub
  | '*' => some mul
  | '/' => some div
  | '^' => some pow
  | _ => none

/-- How strongly an operator binds: sums, products, powers. -/
def precedence : Operator → Nat
  | add | sub => 1
  | mul | div => 2
  | pow => 3

/-- Powers group to the right, all other operators to the left. -/
def associativity : Operator → Associativity
  | pow => .right
  | _ => .left

end Operator

/-- The functions that can be called by name. -/
inductive Function
  | sin
  | cos
  | tan
  | log
  | sqrt
  deriving Repr, DecidableEq

namespace Function

def name : Function → String
  | sin => "sin"
  | cos => "cos"
  | tan => "tan"
  | log => "log"
  | sqrt => "sqrt"

/-- The function with a name in small letters. -/
def ofName? : String → Option Function
  | "sin" => some sin
  | "cos" => some cos
  | "tan" => some tan
  | "log" => some log
  | "sqrt" => some sqrt
  | _ => none

theorem ofName?_name (f : Function) : ofName? f.name = some f := by
  cases f <;> rfl

end Function

/-! ## Tokens -/

/-- The ratio of the circumference of a circle to its diameter, as a double. -/
def pi : Float := Float.ofBits 0x400921FB54442D18

inductive Token
  | number (value : Float)
  | operator (op : Operator)
  /-- The mark `!` behind its operand. -/
  | factorial
  | function (f : Function)
  /-- The sign in front of an operand. -/
  | neg
  | opening
  | closing
  deriving Repr, DecidableEq

namespace Token

def isParenthesis : Token → Bool
  | opening | closing => true
  | _ => false

/-- Whether an operand can end with this token: a `+` or `-` behind it is an operator, behind any
other token and at the start it is a sign. -/
def endsOperand : Token → Bool
  | number _ | factorial | closing => true
  | _ => false

/-- Precedence and grouping of the tokens that are operators. The factorial binds above powers, so
that `3!^2` is `(3!)^2`. -/
def binding? : Token → Option (Nat × Associativity)
  | operator op => some (op.precedence, op.associativity)
  | factorial => some (4, .right)
  | _ => none

/-- The token as text; numbers have the fewest digits that read back. -/
def display : Token → String
  | number value => Decimal.shortest value
  | operator op => String.singleton op.symbol
  | factorial => "!"
  | function f => f.name
  | neg => "neg"
  | opening => "("
  | closing => ")"

end Token

/-- Tokens as text, with a space between neighbours. -/
def render (tokens : List Token) : String := " ".intercalate (tokens.map Token.display)

end DeskShell.Expression
