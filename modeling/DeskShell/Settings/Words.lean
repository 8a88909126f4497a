import DeskShell.Text.Blank

/-!
# Words in quotes

A line of settings is cut into words at ASCII blanks. A part of a word may stand in double quotes,
where blanks belong to the word and a backslash lets the next character stand for itself; the quotes
are left out. `quoted` writes any word so that it stays whole, and `split_quoted` says that it is
read back, whatever follows.
-/

set_option autoImplicit false

namespace DeskShell.Settings

open Text

/-- A word put in front of others, unless it is empty. `reversed` is the word, its last character
first. -/
def close (reversed : List Char) (others : List (List Char)) : List (List Char) :=
  if reversed.isEmpty then others else reversed.reverse :: others

/-- The words of a text that is read inside quotes or outside. `reversed` is what has been read of
the current word, its last character first. -/
def split (inQuotes : Bool) (reversed : List Char) : List Char → List (List Char)
  | [] => close reversed []
  | '"' :: rest => split (!inQuotes) reversed rest
  | ['\\'] => if inQuotes then close reversed [] else close ('\\' :: reversed) []
  | '\\' :: c :: rest =>
      if inQuotes then split inQuotes (c :: reversed) rest
      else split inQuotes ('\\' :: reversed) (c :: rest)
  | c :: rest =>
      if isAsciiBlank c && !inQuotes then close reversed (split inQuotes [] rest)
      else split inQuotes (c :: reversed) rest

def words (cs : List Char) : List (List Char) := split false [] cs

/-! ## Writing -/

/-- A text with a backslash before each quote and each backslash. -/
def escaped (cs : List Char) : List Char :=
  cs.flatMap fun c => if c = '"' || c = '\\' then ['\\', c] else [c]

def quoted (cs : List Char) : List Char := '"' :: escaped cs ++ ['"']

/-- Inside quotes, an escaped text is read back as a part of the current word. -/
theorem split_escaped (cs reversed rest : List Char) :
    split true reversed (escaped cs ++ '"' :: rest)
      = split false (cs.reverse ++ reversed) rest := by
  induction cs generalizing reversed with
  | nil => simp [escaped, split]
  | cons c cs ih =>
      have hstep : escaped (c :: cs) ++ '"' :: rest
          = (if c = '"' || c = '\\' then ['\\', c] else [c]) ++ (escaped cs ++ '"' :: rest) := by
        simp [escaped]
      rw [hstep]
      by_cases hq : c = '"'
      · subst hq
        simp [split, ih]
      · by_cases hb : c = '\\'
        · subst hb
          simp [split, ih]
        · simp only [hq, hb, decide_false, Bool.or_self, Bool.false_eq_true, if_false]
          rw [List.cons_append, List.nil_append, split]
          · simp [ih]
          · exact hq
          · intro h; exact absurd h hb
          · intro d ds h; exact absurd h hb

theorem split_quoted (cs reversed rest : List Char) :
    split false reversed (quoted cs ++ rest) = split false (cs.reverse ++ reversed) rest := by
  simp [quoted, split, split_escaped]

end DeskShell.Settings
