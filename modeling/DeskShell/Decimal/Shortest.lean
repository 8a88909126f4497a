import DeskShell.Decimal.Binary
import DeskShell.Text.Numeral

/-!
# Shortest digits

A number written with the fewest digits that read back as the same double, and of those the digits
nearest to it. The numbers that read back as a double form an interval around it, which contains
its ends exactly when the significand is even; the coarsest decimal grid with a point in that
interval gives the digits, and such a point is one of the two neighbours of the double on the grid.
-/

set_option autoImplicit false

namespace DeskShell.Decimal

/-- The interval of numbers that read back as one double, in units of `2 ^ (exponent - 2)`: the
double itself is `4 * significand`, and the ends are the midpoints to its neighbours. -/
structure Interval where
  low : Nat
  high : Nat
  closed : Bool
  deriving Repr, DecidableEq

/-- The interval of a positive finite double. Below a power of two the next smaller double is only
half as far away, except at the least exponent. -/
def Interval.around (significand : Nat) (exponent : Int) : Interval where
  low :=
    if significand = firstBit ∧ leastExponent < exponent then 4 * significand - 1
    else 4 * significand - 2
  high := 4 * significand + 2
  closed := significand % 2 = 0

/-- A number of the form `n * 2 ^ twos * 10 ^ tens`, for comparison with others of this form. -/
structure Scaled where
  n : Nat
  twos : Int
  tens : Int

/-- The quotient of two scaled numbers as a numerator and a denominator. -/
def Scaled.quotient (a b : Scaled) : Nat × Nat :=
  let twos := a.twos - b.twos
  let tens := a.tens - b.tens
  (a.n * Nat.pow 2 twos.toNat * Nat.pow 10 tens.toNat,
    b.n * Nat.pow 2 (-twos).toNat * Nat.pow 10 (-tens).toNat)

/-- Whether `k * 10 ^ tens` lies in an interval whose unit is `2 ^ twos`. -/
def Interval.contains (i : Interval) (twos : Int) (k : Nat) (tens : Int) : Bool :=
  -- the quotient of the candidate by one unit of the interval
  let (num, den) := Scaled.quotient ⟨k, 0, tens⟩ ⟨1, twos, 0⟩
  if i.closed then i.low * den ≤ num && num ≤ i.high * den
  else i.low * den < num && num < i.high * den

/-- The point of the grid of step `10 ^ tens` that reads back as the double, if there is one; of
two such points the nearer one. -/
def gridPoint? (significand : Nat) (exponent tens : Int) : Option Nat :=
  let i := Interval.around significand exponent
  let (num, den) := Scaled.quotient ⟨significand, exponent, 0⟩ ⟨1, 0, tens⟩
  let below := num / den
  let hits := [below, below + 1].filter fun k => i.contains (exponent - 2) k tens
  match hits with
  | [] => none
  | [k] => some k
  | _ => some (if 2 * (num % den) < den then below else below + 1)

/-- The first grid with a point that reads back, from the step `10 ^ tens` downwards. -/
def searchGrid (significand : Nat) (exponent : Int) : Nat → Int → Nat × Int
  | 0, tens => (0, tens)
  | fuel + 1, tens =>
      match gridPoint? significand exponent tens with
      | some k => (k, tens)
      | none => searchGrid significand exponent fuel (tens - 1)

/-- A decimal exponent above that of every grid with a hit: thirty per cent of the binary one. -/
def topStep (significand : Nat) (exponent : Int) : Int :=
  (exponent + significand.log2 + 1) * 30103 / 100000 + 1

/-- The shortest decimal `k * 10 ^ tens` that reads back as a positive finite double. Seventeen
digits always suffice. -/
def shortestParts (significand : Nat) (exponent : Int) : Nat × Int :=
  searchGrid significand exponent 24 (topStep significand exponent)

/-- The decimal `k * 10 ^ tens` in full, without an exponent. -/
def positional (k : Nat) (tens : Int) : List Char :=
  let ds := Text.digits k
  if 0 ≤ tens then ds ++ List.replicate tens.toNat '0'
  else
    let places := (-tens).toNat
    let padded := Text.padStart (places + 1) '0' ds
    padded.take (padded.length - places) ++ '.' :: padded.drop (padded.length - places)

/-- A number with the fewest digits that read back, without an exponent and without a point where
nothing follows it; the sign of zero is kept. -/
def shortest (x : Float) : String :=
  match Parts.ofFloat x with
  | .notANumber => "NaN"
  | .infinite negative => if negative then "-inf" else "inf"
  | .finite negative significand exponent =>
      let (k, tens) := if significand = 0 then (0, 0) else shortestParts significand exponent
      let shown := positional k tens
      String.ofList (if negative then '-' :: shown else shown)

end DeskShell.Decimal
