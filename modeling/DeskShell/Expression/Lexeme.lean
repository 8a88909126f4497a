import DeskShell.Text.Blank
import DeskShell.Text.Extent
import DeskShell.Text.Letter
import DeskShell.Text.Numeral

/-!
# Lexemes

The source of an expression cut into lexemes: numerals, words of ASCII letters, and single marks,
each with its byte offset. Cutting never fails: a numeral without digits and a mark that means
nothing are lexemes too, and are refused only when they are given a meaning (`Expression.Reading`).

`read_text` says that a numeral is cut off without loss; the pieces of a source put together are
the source less its blanks.
-/

set_option autoImplicit false

namespace DeskShell.Expression

open Text

/-! ## Numerals -/

/-- The exponent of a numeral as it is spelled. -/
structure Exponent where
  marker : Char
  sign : Option Char
  digits : List Char
  deriving Repr, DecidableEq

/-- A decimal numeral as it is spelled. `fraction` holds the digits behind the point, where there
is a point. -/
structure Numeral where
  whole : List Char
  fraction : Option (List Char)
  exponent : Option Exponent
  deriving Repr, DecidableEq

namespace Exponent

def text (e : Exponent) : List Char := e.marker :: (e.sign.toList ++ e.digits)

/-- The sign at the start of a text, and the rest. -/
def sign? : List Char → Option Char × List Char
  | c :: rest => if c = '+' ∨ c = '-' then (some c, rest) else (none, c :: rest)
  | [] => (none, [])

/-- The exponent at the start of a text: an `e` in either case, an optional sign, and at least one
digit. Where no digit follows, there is no exponent. -/
def read : List Char → Option Exponent × List Char
  | marker :: rest =>
      let (sign, behind) := sign? rest
      let ds := behind.takeWhile Char.isDigit
      if (marker = 'e' ∨ marker = 'E') ∧ ds ≠ [] then
        (some ⟨marker, sign, ds⟩, behind.dropWhile Char.isDigit)
      else (none, marker :: rest)
  | [] => (none, [])

/-- The power of ten that an exponent denotes. -/
def value (e : Exponent) : Int :=
  if e.sign = some '-' then -(Text.value e.digits : Int) else Text.value e.digits

theorem sign?_text (cs : List Char) : (sign? cs).1.toList ++ (sign? cs).2 = cs := by
  cases cs with
  | nil => rfl
  | cons c rest => rw [sign?]; split <;> rfl

theorem read_text (cs : List Char) :
    ((read cs).1.elim [] text) ++ (read cs).2 = cs := by
  cases cs with
  | nil => rfl
  | cons marker rest =>
      simp only [read]
      split
      · simp only [Option.elim, text, List.cons_append, List.append_assoc,
          List.takeWhile_append_dropWhile, sign?_text]
      · rfl

end Exponent

namespace Numeral

def text (n : Numeral) : List Char :=
  n.whole ++ n.fraction.elim [] ('.' :: ·) ++ n.exponent.elim [] Exponent.text

/-- Whether there is a digit before the exponent. -/
def hasDigits (n : Numeral) : Bool := !(n.whole.isEmpty && (n.fraction.getD []).isEmpty)

/-- A point and the digits behind it at the start of a text, and the rest. -/
def readFraction : List Char → Option (List Char) × List Char
  | '.' :: rest => (some (rest.takeWhile Char.isDigit), rest.dropWhile Char.isDigit)
  | cs => (none, cs)

/-- The longest numeral at the start of a text, and the rest. -/
def read (cs : List Char) : Numeral × List Char :=
  let whole := cs.takeWhile Char.isDigit
  let (fraction, behind) := readFraction (cs.dropWhile Char.isDigit)
  let (exponent, rest) := Exponent.read behind
  (⟨whole, fraction, exponent⟩, rest)

/-- The double nearest to the number that a numeral denotes, a tie going to the even one;
infinite beyond the range of doubles. -/
def value (n : Numeral) : Float :=
  let fraction := n.fraction.getD []
  let power := (n.exponent.elim 0 Exponent.value) - fraction.length
  Float.ofScientific (Text.value (n.whole ++ fraction)) (power < 0) power.natAbs

theorem readFraction_text (cs : List Char) :
    (readFraction cs).1.elim [] ('.' :: ·) ++ (readFraction cs).2 = cs := by
  unfold readFraction
  split
  · simp
  · rfl

theorem read_text (cs : List Char) : (read cs).1.text ++ (read cs).2 = cs := by
  simp only [read, text, List.append_assoc, Exponent.read_text, readFraction_text,
    List.takeWhile_append_dropWhile]

end Numeral

/-! ## Lexemes -/

/-- A piece of the source of an expression. -/
inductive Lexeme
  | numeral (n : Numeral)
  /-- A longest run of ASCII letters. -/
  | word (letters : List Char)
  /-- Any other character that is not blank. -/
  | mark (c : Char)
  deriving Repr, DecidableEq

namespace Lexeme

def text : Lexeme → List Char
  | numeral n => n.text
  | word letters => letters
  | mark c => [c]

def size (l : Lexeme) : Nat := byteCount l.text

/-- The lexeme that starts with the character `c`, and what is left of the text `rest` behind
`c`. -/
def next (c : Char) (rest : List Char) : Lexeme × List Char :=
  if c.isDigit || c == '.' then
    let (n, after) := Numeral.read (c :: rest)
    (numeral n, after)
  else if isLetter c then (word (c :: rest.takeWhile isLetter), rest.dropWhile isLetter)
  else (mark c, rest)

/-- Cutting off a lexeme loses nothing. -/
theorem next_text (c : Char) (rest : List Char) :
    (next c rest).1.text ++ (next c rest).2 = c :: rest := by
  simp only [next]
  split
  · simp only [text, Numeral.read_text]
  · split <;> simp [text]

theorem text_next_ne_nil (c : Char) (rest : List Char) : (next c rest).1.text ≠ [] := by
  simp only [next]
  split
  case isTrue h =>
    simp only [text, Numeral.text, Numeral.read]
    simp only [Bool.or_eq_true, beq_iff_eq] at h
    rcases h with h | rfl
    · simp [h]
    · simp [Numeral.readFraction]
  case isFalse =>
    split <;> simp [text]

theorem length_next_lt (c : Char) (rest : List Char) :
    (next c rest).2.length < (c :: rest).length := by
  have htext := congrArg List.length (next_text c rest)
  have hpos := List.length_pos_iff.2 (text_next_ne_nil c rest)
  simp only [List.length_append] at htext
  omega

/-- The lexemes of a text that starts at the byte offset `position`, each with its own offset. -/
def scan (position : Nat) : List Char → List (Nat × Lexeme)
  | [] => []
  | c :: rest =>
      if isAsciiBlank c then scan (position + 1) rest
      else
        (position, (next c rest).1) :: scan (position + (next c rest).1.size) (next c rest).2
termination_by cs => cs.length
decreasing_by
  · simp
  · exact length_next_lt c rest

end Lexeme

end DeskShell.Expression
