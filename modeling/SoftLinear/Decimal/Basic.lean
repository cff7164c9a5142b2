/-!
# Decimals

A finite binary64 number is a sign, a mantissa and a power of two.  `Binary.ofFloat?` reads these off the bits, and
`Binary.numerator` and `Binary.denominator` turn them into a quotient of natural numbers, on which decimal digits are
computed exactly.

A `Decimal` is a list of digits with a point.  This module holds exact rounding of quotients and the decimal exponent
of a quotient, on which the printers of `Decimal.Text` rest, and the reader of decimals.
-/

namespace SoftLinear

/-- A finite binary number: the mantissa times a power of two, with a sign. -/
structure Binary where
  negative : Bool
  mantissa : Nat
  exponent : Int
  deriving DecidableEq, Repr

namespace Binary

/-- The mantissas of normal numbers start here. -/
def hidden : Nat := Nat.pow 2 52

/-- The sign, mantissa and exponent of a finite number. -/
def ofFloat? (x : Float) : Option Binary :=
  let bits := x.toBits.toNat
  let negative := Nat.pow 2 63 ≤ bits
  let exponent : Nat := bits / hidden % 2048
  let fraction := bits % hidden
  if exponent = 2047 then none
  else if exponent = 0 then some ⟨negative, fraction, -1074⟩
  else some ⟨negative, hidden + fraction, (exponent : Int) - 1075⟩

/-- Whether the neighbour below is nearer than the neighbour above. -/
def isBinadeStart (b : Binary) : Bool := b.mantissa = hidden && -1074 < b.exponent

/-- The numerator of the magnitude, over `denominator`. -/
def numerator (b : Binary) : Nat := b.mantissa * Nat.pow 2 b.exponent.toNat

def denominator (b : Binary) : Nat := Nat.pow 2 (-b.exponent).toNat

end Binary

/-- The number `0.d₁d₂… · 10 ^ point`, the first digit not zero unless the number is. -/
structure Decimal where
  digits : List Char
  point : Int
  deriving DecidableEq, Repr

namespace Decimal

def digitsOf (n : Nat) : List Char := (toString n).toList

/-- The decimal `n · 10 ^ exponent`. -/
def ofScaled (n : Nat) (exponent : Int) : Decimal :=
  let digits := digitsOf n
  ⟨digits, digits.length + exponent⟩

def trim (d : Decimal) : Decimal := { d with digits := (d.digits.reverse.dropWhile (· = '0')).reverse }

/-- The quotient `num / den` as a multiple of `10 ^ exponent`: numerator and denominator. -/
def scale (num den : Nat) (exponent : Int) : Nat × Nat :=
  (num * Nat.pow 10 (-exponent).toNat, den * Nat.pow 10 exponent.toNat)

/-- The quotient rounded to the nearest natural number, a half to the even neighbour. -/
def roundDiv (num den : Nat) : Nat :=
  let floor := num / den
  let twice := 2 * (num % den)
  if twice < den then floor
  else if den < twice then floor + 1
  else floor + floor % 2

/-- Whether `10 ^ exponent` is at most the quotient. -/
def powerLe (num den : Nat) (exponent : Int) : Bool :=
  let (n, d) := scale num den exponent
  d ≤ n

/-- The greatest `k` for which `10 ^ k` is at most the positive quotient `num / den`. -/
def magnitude (num den : Nat) : Int :=
  let guess : Int := (((num.log2 : Int) - (den.log2 : Int)) * 30103).fdiv 100000
  if powerLe num den (guess + 1) then guess + 1
  else if powerLe num den guess then guess
  else guess - 1

/-- Reads `coefficient · 10 ^ exponent`, rounded to the nearest binary number. -/
def toFloat (coefficient : Nat) (exponent : Int) : Float :=
  let size : Int := (digitsOf coefficient).length + exponent
  if coefficient = 0 || size < -400 then 0
  else if 400 < size then 1 / 0
  else Float.ofScientific coefficient (exponent < 0) exponent.natAbs

end Decimal

end SoftLinear
