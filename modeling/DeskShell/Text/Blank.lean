/-!
# White space

Two notions of white space occur: the Unicode property `White_Space` (`isBlank`), used where a
person types a line, and the five ASCII blanks (`isAsciiBlank`), used where a line is cut into a
command and its argument. A text is a `String`; the work is done on its list of characters.

`pieces_ne_nil` and `flatten_pieces` pin down the cutting of a text at separators: there is always
a piece, and no character other than a separator is lost.
-/

set_option autoImplicit false

namespace DeskShell.Text

/-! ## Classes -/

/-- The Unicode property `White_Space`. -/
def isBlank (c : Char) : Bool :=
  let n := c.toNat
  (0x09 ≤ n && n ≤ 0x0D) || n == 0x20 || n == 0x85 || n == 0xA0 || n == 0x1680
    || (0x2000 ≤ n && n ≤ 0x200A) || n == 0x2028 || n == 0x2029 || n == 0x202F || n == 0x205F
    || n == 0x3000

/-- The ASCII blanks: space, tab, line feed, form feed and carriage return. -/
def isAsciiBlank (c : Char) : Bool :=
  c == ' ' || c == '\t' || c == '\n' || c == '\x0c' || c == '\r'

theorem isBlank_of_isAsciiBlank {c : Char} (h : isAsciiBlank c = true) : isBlank c = true := by
  simp only [isAsciiBlank, Bool.or_eq_true, beq_iff_eq] at h
  rcases h with (((rfl | rfl) | rfl) | rfl) | rfl <;> rfl

/-! ## Trimming -/

def trimStart (cs : List Char) : List Char := cs.dropWhile isBlank

def trimEnd (cs : List Char) : List Char := (cs.reverse.dropWhile isBlank).reverse

def trim (cs : List Char) : List Char := trimEnd (trimStart cs)

/-! ## Cutting -/

/-- The pieces of a text between the characters that satisfy `cut`; empty pieces are kept. -/
def pieces (cut : Char → Bool) : List Char → List (List Char)
  | [] => [[]]
  | c :: rest =>
      if cut c then [] :: pieces cut rest
      else
        match pieces cut rest with
        | [] => [[c]]
        | piece :: others => (c :: piece) :: others

theorem pieces_ne_nil (cut : Char → Bool) (cs : List Char) : pieces cut cs ≠ [] := by
  induction cs with
  | nil => simp [pieces]
  | cons c rest ih =>
      rw [pieces]
      split
      · simp
      · split <;> simp

/-- Cutting loses the separators and nothing else. -/
theorem flatten_pieces (cut : Char → Bool) (cs : List Char) :
    (pieces cut cs).flatten = cs.filter (fun c => !cut c) := by
  induction cs with
  | nil => rfl
  | cons c rest ih =>
      rw [pieces]
      by_cases hc : cut c = true
      · simp [hc, ih]
      · cases hp : pieces cut rest with
        | nil => exact absurd hp (pieces_ne_nil cut rest)
        | cons piece others =>
            rw [hp] at ih
            simp only [List.flatten_cons] at ih
            simp [hc, ih]

/-- The words of a text: its non-empty pieces between blanks. -/
def words (cs : List Char) : List (List Char) := (pieces isBlank cs).filter (fun w => !w.isEmpty)

/-- A line cut after its first word: the word, and what follows the first ASCII blank. -/
def firstWord (cs : List Char) : List Char × List Char :=
  (cs.takeWhile (fun c => !isAsciiBlank c), (cs.dropWhile (fun c => !isAsciiBlank c)).drop 1)

end DeskShell.Text
