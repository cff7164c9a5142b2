import SoftLinear.Decimal.Basic

/-!
# Scalars as text

The text of a scalar has the fewest digits that read back as the same scalar, and among those the nearest.  The digits
are found on the grids of one, two, … seventeen digits: the first grid with a point in the interval of reals that round
to the scalar wins.

* `plain` is always positional and writes whole numbers without a point;
* `precise` keeps a fraction and turns to exponents from `10 ^ 16` on and below `10 ^ -4`;
* `scientific` and `fixedPoint` write a fixed number of digits: the exact value is rounded once, a half to the even
  neighbour.
-/

namespace SoftLinear

namespace Decimal

/-- The reals that round to a binary number, from `low` to `high` around `center`, all over one denominator; the ends
belong to them if the interval is closed. -/
structure Interval where
  center : Nat
  low : Nat
  high : Nat
  den : Nat
  closed : Bool

/-- The interval of a binary number: half a unit up, and half a unit (a quarter at a binade's start) down. -/
def Interval.of (b : Binary) : Interval :=
  let unit := Nat.pow 2 b.exponent.toNat
  { center := 4 * b.mantissa * unit
    low := (4 * b.mantissa - if b.isBinadeStart then 1 else 2) * unit
    high := (4 * b.mantissa + 2) * unit
    den := 4 * b.denominator
    closed := b.mantissa % 2 = 0 }

def Interval.contains (i : Interval) (num den : Nat) : Bool :=
  if i.closed then i.low * den ≤ num * i.den && num * i.den ≤ i.high * den
  else i.low * den < num * i.den && num * i.den < i.high * den

/-- The point of the grid of multiples of `10 ^ exponent` that lies in the interval and is nearest to the number; of
two at the same distance the upper. -/
def Interval.onGrid (i : Interval) (exponent : Int) : Option Nat :=
  let (num, den) := scale i.center i.den exponent
  let floor := num / den
  let inside (n : Nat) : Bool := i.contains (n * Nat.pow 10 exponent.toNat) (Nat.pow 10 (-exponent).toNat)
  match inside floor, inside (floor + 1) with
  | true, true => some (if 2 * (num % den) < den then floor else floor + 1)
  | true, false => some floor
  | false, true => some (floor + 1)
  | false, false => none

/-- The shortest decimal that reads back as a positive binary number. -/
def shortest (b : Binary) : Decimal :=
  let i := Interval.of b
  let top := magnitude i.center i.den
  let found := (List.range 17).findSome? fun (n : Nat) =>
    let exponent := top - (n : Int)
    (i.onGrid exponent).map fun digits => (ofScaled digits exponent).trim
  found.getD ⟨['0'], 1⟩

/-- The digits with the point among them, zeros filled in on either side. -/
def positional (d : Decimal) : List Char × List Char :=
  if d.point ≤ 0 then (['0'], List.replicate (-d.point).toNat '0' ++ d.digits)
  else
    let whole := d.digits.take d.point.toNat
    (whole ++ List.replicate (d.point.toNat - whole.length) '0', d.digits.drop d.point.toNat)

/-- Positional notation; a whole number has no point. -/
def plainText (d : Decimal) : List Char :=
  let (whole, fraction) := d.positional
  if fraction.isEmpty then whole else whole ++ '.' :: fraction

/-- Positional notation between `10 ^ -4` and `10 ^ 16`, with a fraction of at least one digit; exponents beyond. -/
def preciseText (d : Decimal) : List Char :=
  if -4 < d.point ∧ d.point ≤ 16 then
    let (whole, fraction) := d.positional
    whole ++ '.' :: (if fraction.isEmpty then ['0'] else fraction)
  else
    let fraction := d.digits.drop 1
    d.digits.take 1 ++ (if fraction.isEmpty then [] else '.' :: fraction) ++ 'e' :: (toString (d.point - 1)).toList

/-- The text of a scalar, given how to write zero and a positive number. -/
def write (zero : String) (positive : Decimal → List Char) (x : Float) : String :=
  match Binary.ofFloat? x with
  | some b =>
    let magnitude := if b.mantissa = 0 then zero else String.ofList (positive (shortest b))
    if b.negative then "-" ++ magnitude else magnitude
  | none => if x.isNaN then "NaN" else if x < 0 then "-inf" else "inf"

end Decimal

/-- A scalar in positional notation, whole numbers without a point: `100`, `0.1`, `-0`. -/
def plain (x : Float) : String := Decimal.write "0" Decimal.plainText x

/-- A scalar that shows itself to be one: `100.0`, `1e16`, `-0.0`. -/
def precise (x : Float) : String := Decimal.write "0.0" Decimal.preciseText x

/-! ## A fixed number of digits -/

namespace Decimal

/-- Digits `d.dd…` with a number of places behind the point, and the decimal exponent. -/
def significant (places : Nat) (num den : Nat) : Nat × Int :=
  if num = 0 then (0, 0)
  else
    let top := magnitude num den
    let (n, d) := scale num den (top - places)
    let rounded := roundDiv n d
    -- rounding up may have carried into one more digit
    if rounded < Nat.pow 10 (places + 1) then (rounded, top) else (rounded / 10, top + 1)

def padLeft (width : Nat) (cs : List Char) : List Char := List.replicate (width - cs.length) '0' ++ cs

/-- A natural number with its last digits behind a point. -/
def withPlaces (places : Nat) (n : Nat) : String :=
  let whole := toString (n / Nat.pow 10 places)
  if places = 0 then whole
  else whole ++ "." ++ String.ofList (padLeft places (digitsOf (n % Nat.pow 10 places)))

/-- Writes a scalar by its exact quotient. -/
def writeRounded (write : Nat → Nat → String) (x : Float) : String :=
  match Binary.ofFloat? x with
  | some b => (if b.negative then "-" else "") ++ write b.numerator b.denominator
  | none => if x.isNaN then "NaN" else if x < 0 then "-inf" else "inf"

end Decimal

/-- Scientific notation with a number of places: `1.235e3`. -/
def scientific (places : Nat) (x : Float) : String :=
  Decimal.writeRounded (fun num den =>
    let (digits, exponent) := Decimal.significant places num den
    Decimal.withPlaces places digits ++ "e" ++ toString exponent) x

/-- Positional notation with a number of places: `1.50`. -/
def fixedPoint (places : Nat) (x : Float) : String :=
  Decimal.writeRounded (fun num den => Decimal.withPlaces places (Decimal.roundDiv (num * Nat.pow 10 places) den)) x

end SoftLinear
