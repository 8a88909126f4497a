import DeskShell.Expression.Reading
import DeskShell.Expression.ReversePolish
import DeskShell.Expression.Value

/-!
# Evaluating an expression

From source text to value: read the tokens, bring them into reverse Polish form, evaluate. The
first phase that fails decides the fault.
-/

set_option autoImplicit false

namespace DeskShell.Expression

def compile (source : String) : Except Fault (List Token) := do
  let tokens ← tokenize source
  reversePolish tokens

def evaluate (source : String) : Except Fault Float := do
  let polish ← compile source
  evaluatePolish polish

/-- A value as it is shown: four decimals. -/
def shown (value : Float) : String := Decimal.fixed 4 value

end DeskShell.Expression
