/-!
# Scalars

Coefficients, right sides, penalties and values are scalars.  Every definition of the library is generic in
`Scalar`, so that one text has two readings:

* over `Float` it is the running program, each operation rounded once and in the order written;
* over `Rat` it is the same computation in exact arithmetic.

A scalar may be undefined (`isNaN`): it then differs from itself, and `larger` and `smaller` pass over it.
-/

namespace SoftLinear

/-- The arithmetic that systems are solved in. -/
class Scalar (α : Type) extends Zero α, One α, OfScientific α, NatCast α, Add α, Sub α, Mul α, Div α, LT α, LE α,
    BEq α where
  abs : α → α
  /-- The value of a variable that nobody has set. -/
  unset : α
  decLt : ∀ a b : α, Decidable (a < b)
  decLe : ∀ a b : α, Decidable (a ≤ b)

instance Scalar.decidableLt {α : Type} [Scalar α] (a b : α) : Decidable (a < b) := Scalar.decLt a b

instance Scalar.decidableLe {α : Type} [Scalar α] (a b : α) : Decidable (a ≤ b) := Scalar.decLe a b

/-- Exact arithmetic: no rounding and no undefined value, so an unset variable stands at zero. -/
instance : Scalar Rat where
  zero := 0
  one := 1
  abs a := if a < 0 then -a else a
  unset := 0
  decLt := inferInstance
  decLe := inferInstance

/-- Binary64 arithmetic: an unset variable is not a number. -/
instance : Scalar Float where
  natCast n := Float.ofNat n
  abs := Float.abs
  unset := 0 / 0
  decLt := inferInstance
  decLe := inferInstance

namespace Scalar

variable {α : Type} [Scalar α]

/-- A scalar is undefined when it differs from itself. -/
def isNaN (a : α) : Bool := !(a == a)

/-- A scalar is finite when its distance from itself is defined. -/
def isFinite (a : α) : Bool := !isNaN (a - a)

/-- The larger of two scalars; an undefined one gives way to the other. -/
def larger (a b : α) : α := if isNaN a then b else if a < b then b else a

/-- The smaller of two scalars; an undefined one gives way to the other. -/
def smaller (a b : α) : α := if isNaN a then b else if b < a then b else a

end Scalar

end SoftLinear
