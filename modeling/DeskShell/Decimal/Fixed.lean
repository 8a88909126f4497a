import DeskShell.Decimal.Binary
import DeskShell.Text.Numeral

/-!
# Fixed places

A number with a fixed count of digits behind the point, correctly rounded: `roundDiv` is within
half a unit of the quotient (`roundDiv_near`), and a tie goes to the even neighbour.
-/

set_option autoImplicit false

namespace DeskShell.Decimal

/-! ## Rounding -/

/-- The quotient of two numbers rounded to the nearest whole number, a tie to the even one. -/
def roundDiv (num den : Nat) : Nat :=
  let q := num / den
  let r := num % den
  if 2 * r < den then q
  else if den < 2 * r then q + 1
  else if q % 2 = 0 then q else q + 1

/-- The rounded quotient is within half a unit of the quotient. -/
theorem roundDiv_near (num : Nat) {den : Nat} (h : 0 < den) :
    2 * num ≤ 2 * (roundDiv num den * den) + den
      ∧ 2 * (roundDiv num den * den) ≤ 2 * num + den := by
  have hdiv : den * (num / den) + num % den = num := Nat.div_add_mod num den
  have hlt : num % den < den := Nat.mod_lt num h
  have hup : (num / den + 1) * den = den * (num / den) + den := by
    rw [Nat.add_mul, Nat.one_mul, Nat.mul_comm]
  have hdown : num / den * den = den * (num / den) := Nat.mul_comm ..
  simp only [roundDiv]
  split
  · omega
  · split
    · omega
    · split <;> omega

/-! ## Writing -/

/-- The digits of `scaled / 10 ^ places`: the whole part, a point, and `places` digits. -/
def placed (places scaled : Nat) : List Char :=
  Text.digits (scaled / Nat.pow 10 places) ++ '.' ::
    Text.padStart places '0' (Text.digits (scaled % Nat.pow 10 places))

/-- The significand and exponent of a finite double as a whole number of units of
`10 ^ -places`. -/
def inUnits (places significand : Nat) (exponent : Int) : Nat :=
  if 0 ≤ exponent then significand * Nat.pow 10 places * Nat.pow 2 exponent.toNat
  else roundDiv (significand * Nat.pow 10 places) (Nat.pow 2 (-exponent).toNat)

/-- A number with `places` digits behind the point; the sign of zero is kept. -/
def fixed (places : Nat) (x : Float) : String :=
  match Parts.ofFloat x with
  | .notANumber => "NaN"
  | .infinite negative => if negative then "-inf" else "inf"
  | .finite negative significand exponent =>
      let shown := placed places (inUnits places significand exponent)
      String.ofList (if negative then '-' :: shown else shown)

end DeskShell.Decimal
