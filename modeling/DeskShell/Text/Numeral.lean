import DeskShell.Text.Blank

/-!
# Decimal numerals

Writing and reading of whole numbers in decimal digits. `value_digits` says that a written number
reads back; `Text.leadingInt?` reads the number at the start of a text and refuses what does not
fit in 64 bits rather than wrapping it.
-/

set_option autoImplicit false

namespace DeskShell.Text

/-! ## Digits -/

/-- The number that a list of ASCII digits denotes, most significant digit first. -/
def value (digits : List Char) : Nat :=
  digits.foldl (fun acc c => 10 * acc + (c.toNat - '0'.toNat)) 0

/-- The ASCII digit for a number below ten. -/
def digit (n : Nat) : Char := Char.ofNat ('0'.toNat + n)

/-- The decimal digits of a number, without leading zeros. -/
def digits (n : Nat) : List Char :=
  if n < 10 then [digit n] else digits (n / 10) ++ [digit (n % 10)]
termination_by n

theorem digit_cases {n : Nat} (h : n < 10) : n = 0 ∨ n = 1 ∨ n = 2 ∨ n = 3 ∨ n = 4 ∨ n = 5
    ∨ n = 6 ∨ n = 7 ∨ n = 8 ∨ n = 9 := by omega

theorem isDigit_digit {n : Nat} (h : n < 10) : (digit n).isDigit = true := by
  rcases digit_cases h with rfl | rfl | rfl | rfl | rfl | rfl | rfl | rfl | rfl | rfl <;> rfl

theorem toNat_digit {n : Nat} (h : n < 10) : (digit n).toNat - '0'.toNat = n := by
  rcases digit_cases h with rfl | rfl | rfl | rfl | rfl | rfl | rfl | rfl | rfl | rfl <;> rfl

theorem value_concat (ds : List Char) (c : Char) :
    value (ds ++ [c]) = 10 * value ds + (c.toNat - '0'.toNat) := by
  simp [value]

@[simp] theorem value_digits (n : Nat) : value (digits n) = n := by
  induction n using digits.induct with
  | case1 n h => rw [digits, if_pos h]; simpa [value] using toNat_digit h
  | case2 n h ih =>
      rw [digits, if_neg h, value_concat, ih, toNat_digit (Nat.mod_lt n (by decide))]
      omega

theorem isDigit_of_mem_digits {n : Nat} {c : Char} (h : c ∈ digits n) : c.isDigit = true := by
  induction n using digits.induct with
  | case1 n hn =>
      rw [digits, if_pos hn, List.mem_singleton] at h
      exact h ▸ isDigit_digit hn
  | case2 n hn ih =>
      rw [digits, if_neg hn, List.mem_append, List.mem_singleton] at h
      rcases h with h | h
      · exact ih h
      · exact h ▸ isDigit_digit (Nat.mod_lt n (by decide))

theorem digits_ne_nil (n : Nat) : digits n ≠ [] := by
  rw [digits]
  split <;> simp

/-! ## Writing -/

def decimal (n : Nat) : String := String.ofList (digits n)

/-- A list of characters brought to at least `width` by putting `fill` in front. -/
def padStart (width : Nat) (fill : Char) (cs : List Char) : List Char :=
  List.replicate (width - cs.length) fill ++ cs

/-- An integer in decimal, with a minus sign where it is negative. -/
def signed (z : Int) : List Char :=
  if z < 0 then '-' :: digits z.natAbs else digits z.natAbs

/-- An integer brought to `width` characters, its sign counted, by zeros behind the sign. -/
def zeroPadded (width : Nat) (z : Int) : List Char :=
  if z < 0 then '-' :: padStart (width - 1) '0' (digits z.natAbs)
  else padStart width '0' (digits z.natAbs)

/-! ## Reading -/

/-- An optional sign at the start of a text: whether it is a minus, and the rest. -/
def takeSign : List Char → Bool × List Char
  | '-' :: rest => (true, rest)
  | '+' :: rest => (false, rest)
  | cs => (false, cs)

/-- A whole text read as an integer: an optional sign and at least one digit. -/
def int? (cs : List Char) : Option Int :=
  let (negative, ds) := takeSign cs
  if ds.isEmpty || !ds.all Char.isDigit then none
  else some (if negative then -(value ds : Int) else value ds)

/-- A whole text read as a number: an optional plus sign and at least one digit. A minus sign is
refused, also before zero. -/
def nat? (cs : List Char) : Option Nat :=
  let (negative, ds) := takeSign cs
  if negative || ds.isEmpty || !ds.all Char.isDigit then none else some (value ds)

/-- The largest signed number of 64 bits. -/
def largestInteger : Nat := 9223372036854775807

/-- The integer at the start of a text, after blanks: an optional sign and the longest run of
digits, which must not be empty and must not exceed the largest signed number of 64 bits. -/
def leadingInt? (cs : List Char) : Option Int :=
  let (negative, rest) := takeSign (trimStart cs)
  let ds := rest.takeWhile Char.isDigit
  if ds.isEmpty || largestInteger < value ds then none
  else some (if negative then -(value ds : Int) else value ds)

/-! ## Decimal digits of all scripts -/

/-- The zeros of the scripts that have decimal digits (Unicode category `Nd`); the nine other
digits of a script follow its zero. -/
def decimalZeros : List Nat :=
  [0x30, 0x660, 0x6F0, 0x7C0, 0x966, 0x9E6, 0xA66, 0xAE6, 0xB66, 0xBE6, 0xC66, 0xCE6, 0xD66,
   0xDE6, 0xE50, 0xED0, 0xF20, 0x1040, 0x1090, 0x17E0, 0x1810, 0x1946, 0x19D0, 0x1A80, 0x1A90,
   0x1B50, 0x1BB0, 0x1C40, 0x1C50, 0xA620, 0xA8D0, 0xA900, 0xA9D0, 0xA9F0, 0xAA50, 0xABF0,
   0xFF10, 0x104A0, 0x10D30, 0x10D40, 0x11066, 0x110F0, 0x11136, 0x111D0, 0x112F0, 0x11450,
   0x114D0, 0x11650, 0x116C0, 0x116D0, 0x116DA, 0x11730, 0x118E0, 0x11950, 0x11BF0, 0x11C50,
   0x11D50, 0x11DA0, 0x11F50, 0x16130, 0x16A60, 0x16AC0, 0x16B50, 0x16D70, 0x1CCF0, 0x1D7CE,
   0x1D7D8, 0x1D7E2, 0x1D7EC, 0x1D7F6, 0x1E140, 0x1E2F0, 0x1E4F0, 0x1E5F1, 0x1E950, 0x1FBF0]

/-- A decimal digit of any script. -/
def isDecimalDigit (c : Char) : Bool :=
  decimalZeros.any fun first => first ≤ c.toNat && c.toNat ≤ first + 9

theorem isDecimalDigit_of_isDigit {c : Char} (h : c.isDigit = true) : isDecimalDigit c = true := by
  simp only [Char.isDigit, Bool.and_eq_true, decide_eq_true_eq, ge_iff_le] at h
  have hlow : 0x30 ≤ c.toNat := h.1
  have hhigh : c.toNat ≤ 0x39 := h.2
  simp [isDecimalDigit, decimalZeros, hlow, hhigh]

end DeskShell.Text
