import DeskShell.Expression.Fault
import DeskShell.Expression.Lexeme

/-!
# Reading an expression

`tokenize` gives the lexemes of a source their meaning, from left to right, and stops at the first
fault. The only thing that a meaning depends on is whether an operand has just ended: then `+` and
`-` are operators; otherwise `-` is the sign `neg`, and `+` is dropped.
-/

set_option autoImplicit false

namespace DeskShell.Expression

open Text

def maxTokens : Nat := 128

/-- The meaning of a word: the constant `pi` or a function, in any case. -/
def wordToken? (word : String) : Option Token :=
  if word = "pi" then some (.number pi) else (Function.ofName? word).map .function

/-- The meaning of a mark; `afterOperand` tells whether an operand has just ended. The inner
`none` is the sign `+`, which stands for nothing; the outer one is a mark without a meaning. -/
def markToken? (afterOperand : Bool) : Char → Option (Option Token)
  | '+' => some (if afterOperand then some (.operator .add) else none)
  | '-' => some (some (if afterOperand then .operator .sub else .neg))
  | '*' => some (some (.operator .mul))
  | '/' => some (some (.operator .div))
  | '^' => some (some (.operator .pow))
  | '!' => some (some .factorial)
  | '(' => some (some .opening)
  | ')' => some (some .closing)
  | _ => none

def Lexeme.meaning (afterOperand : Bool) (position : Nat) : Lexeme → Except Fault (Option Token)
  | numeral n =>
      if !n.hasDigits then .error (.invalidNumber position)
      else if n.value.isFinite then .ok (some (.number n.value))
      else .error (.numberOutOfRange position)
  | word letters =>
      let word := lower (String.ofList letters)
      match wordToken? word with
      | some token => .ok (some token)
      | none => .error (.unknownWord word position)
  | mark c =>
      match markToken? afterOperand c with
      | some token => .ok token
      | none => .error (.invalidCharacter c position)

/-- The tokens of a list of lexemes, of which at most `room` may be tokens. -/
def tokensOf (afterOperand : Bool) (room : Nat) :
    List (Nat × Lexeme) → Except Fault (List Token)
  | [] => .ok []
  | (position, lexeme) :: rest =>
      match lexeme.meaning afterOperand position with
      | .error fault => .error fault
      | .ok none => tokensOf afterOperand room rest
      | .ok (some token) =>
          match room with
          | 0 => .error .tooLong
          | room + 1 => (tokensOf token.endsOperand room rest).map (token :: ·)

def tokenize (source : String) : Except Fault (List Token) :=
  tokensOf false maxTokens (Lexeme.scan 0 source.toList)

end DeskShell.Expression
