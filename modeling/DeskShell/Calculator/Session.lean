import DeskShell.Expression.Evaluate
import DeskShell.Terminal.Dialogue

/-!
# The calculator at the prompt

Each line is an expression, answered by its value or by what is wrong with it; `exit` ends the
session. The calculator remembers nothing and uses no files.
-/

set_option autoImplicit false

namespace DeskShell.Calculator

open Terminal Files

def answer (style : Style) (line : String) : Transcript :=
  match Expression.evaluate line with
  | .ok value => .sayLine s!"Result: {Expression.shown value}"
  | .error fault => .complain style fault.message

def dialogue (style : Style) : Dialogue Unit where
  prompt _ := "Enter expression: "
  hear _ line :=
    pure <|
      if line = "exit" then
        { written := .sayLine "Calculator session ended.", state := (), last := true }
      else if line = "" then { written := .nothing, state := () }
      else { written := answer style line, state := () }
  atEnd _ := pure (.complain style "Input error. Exiting calculator.")

/-- The first words of a session. -/
def opening : Access (Turn Unit) :=
  pure { written := .sayLine "Scientific Calculator (type 'exit' to return)", state := () }

end DeskShell.Calculator
