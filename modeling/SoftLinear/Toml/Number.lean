import SoftLinear.Decimal.Basic
import SoftLinear.Text.Reader
import SoftLinear.Toml.Value

/-!
# TOML numbers and moments

Integers have 64 bits.  Numbers with a fraction or an exponent are read to the nearest binary number, and one above the
largest of them is refused.  Of dates and times only the form and the ranges are checked.
-/

namespace SoftLinear.Toml

open Reader

/-! ## Numbers -/

/-- Digits of a base, with single underscores between them if wanted. -/
def digits (base : Nat) : Reader Char (List Char) := do
  let digit := satisfying (isDigitOf base)
  let first ← digit
  let others ← many (digit <|> (char '_' *> digit))
  return first :: others

/-- The digits of a decimal integer, which start with a zero only if there is no other. -/
def leading : Reader Char (List Char) := (char '0' *> pure ['0']) <|> digits 10

/-- The range of integers. -/
def inRange (n : Int) : Bool := -9223372036854775808 ≤ n && n ≤ 9223372036854775807

/-- An integer, decimal or after a mark for its base. -/
def integer : Reader Char Value := do
  let based (mark : String) (base : Nat) : Reader Char Int := do
    word mark
    return (← natural? base (← digits base) : Nat)
  let decimal : Reader Char Int := do
    let negative ← sign
    let n : Int := decimalValue (← leading)
    return if negative then -n else n
  let n ← based "0x" 16 <|> based "0o" 8 <|> based "0b" 2 <|> decimal
  guard (inRange n)
  return .integer n

def exponent : Reader Char Int := do
  discard (satisfying fun c => c = 'e' || c = 'E')
  let negative ← sign
  let n : Int := decimalValue (← digits 10)
  return if negative then -n else n

/-- A number with a fraction, an exponent or both. -/
def fractional : Reader Char Float := do
  let negative ← sign
  let whole ← leading
  let fraction ← optional (char '.' *> digits 10)
  let power ← optional exponent
  guard (fraction.isSome || power.isSome)
  let fraction := fraction.getD []
  let magnitude := Decimal.toFloat (decimalValue (whole ++ fraction)) (power.getD 0 - fraction.length)
  let x := if negative then -magnitude else magnitude
  guard (x != 1 / 0)
  return x

/-- An infinity or a NaN. -/
def special : Reader Char Float := do
  let negative ← sign
  let x : Float ← (word "inf" *> pure (1 / 0)) <|> (word "nan" *> pure (0 / 0))
  return if negative then -x else x

/-- A number that is no integer. -/
def float : Reader Char Value := do return .float (← fractional <|> special)

/-! ## Dates and times -/

/-- A number of so many digits within bounds. -/
def bounded (size low high : Nat) : Reader Char Nat := do
  let n := decimalValue (← times size (satisfying Char.isDigit))
  guard (low ≤ n && n ≤ high)
  return n

/-- The length of a month. -/
def daysIn (year month : Nat) : Nat :=
  if month = 2 then if (year % 4 = 0 && year % 100 ≠ 0) || year % 400 = 0 then 29 else 28
  else if month = 4 || month = 6 || month = 9 || month = 11 then 30
  else 31

def date : Reader Char Unit := do
  let year ← bounded 4 0 9999
  char '-'
  let month ← bounded 2 1 12
  char '-'
  discard (bounded 2 1 (daysIn year month))

/-- A time of day, with seconds. -/
def time : Reader Char Unit := do
  discard (bounded 2 0 23)
  char ':'
  discard (bounded 2 0 59)
  char ':'
  discard (bounded 2 0 60)
  discard (optional (char '.' *> satisfying Char.isDigit *> takeWhile Char.isDigit))

/-- The distance of a clock from universal time. -/
def offset : Reader Char Unit := discard (satisfying fun c => c = 'Z' || c = 'z') <|> do
  discard (satisfying fun c => c = '+' || c = '-')
  discard (bounded 2 0 23)
  char ':'
  discard (bounded 2 0 59)

/-- A date, a time, or a date with a time. -/
def moment : Reader Char Value := do
  let clock := satisfying (fun c => c = 'T' || c = 't' || c = ' ') *> time *> discard (optional offset)
  (date *> discard (optional clock)) <|> time
  return .moment

end SoftLinear.Toml
