/-!
# Doubles taken apart

A finite double is a sign and a natural significand times a power of two. The two printers of this
library (`Decimal.Fixed`, `Decimal.Shortest`) work on these numbers alone, in exact arithmetic.
-/

set_option autoImplicit false

namespace DeskShell.Decimal

/-- What a double holds: a finite one is `significand * 2 ^ exponent`, negated where `negative`. -/
inductive Parts
  | notANumber
  | infinite (negative : Bool)
  | finite (negative : Bool) (significand : Nat) (exponent : Int)
  deriving Repr, DecidableEq

/-- The number of bits of a significand behind its first one. -/
def fractionBits : Nat := 52

/-- The smallest significand with its first bit set. -/
def firstBit : Nat := Nat.pow 2 fractionBits

/-- The largest value of the exponent field, which marks what is not finite. -/
def lastField : Nat := 2047

/-- The exponent of the smallest positive double. -/
def leastExponent : Int := -1074

/-- The parts of a double, read off its bits: one for the sign, eleven for the biased exponent,
fifty-two for the significand, whose first bit is understood unless the exponent field is zero. -/
def Parts.ofFloat (x : Float) : Parts :=
  let bits := x.toBits.toNat
  let negative := bits / (firstBit * (lastField + 1)) == 1
  let field := bits / firstBit % (lastField + 1)
  let fraction := bits % firstBit
  if field = lastField then
    if fraction = 0 then .infinite negative else .notANumber
  else if field = 0 then .finite negative fraction leastExponent
  else .finite negative (firstBit + fraction) (leastExponent + (field - 1 : Nat))

end DeskShell.Decimal
