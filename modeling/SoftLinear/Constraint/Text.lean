import SoftLinear.Constraint.Basic
import SoftLinear.Decimal.Text

/-!
# Constraints and refusals as text

A constraint is written as its weighted sum, its relation and the current value of its right side, with its name in
front and, when it is soft, its penalty behind: `width: 1*x0 + -1*x1 >= 10 (penalty 0.5)`.

An `Error` says why an edit of a system is refused.  That a system cannot be solved is never an error; it is a status.
-/

namespace SoftLinear

/-- The sign that a relation is written with. -/
def Relation.symbol : Relation → String
  | eq => "="
  | le => "<="
  | ge => ">="

/-- A weight and its variable: `2*x0`. -/
def Term.text (t : Term Float) : String := plain t.coefficient ++ "*" ++ t.var.label

/-- The kind of a right side and its current value. -/
def RightSide.text (r : RightSide Float) : String :=
  (if r.isTracked then "Computed(" else "Fixed(") ++ precise r.value ++ ")"

namespace Constraint

/-- The left side; an empty sum is written as zero. -/
def leftText (c : Constraint Float) : String :=
  if c.terms.isEmpty then "0" else String.intercalate " + " (c.terms.map Term.text)

def text (c : Constraint Float) : String :=
  let label := match c.name with
    | some name => name ++ ": "
    | none => ""
  let penalty := if c.isHard then "" else " (penalty " ++ plain c.penalty ++ ")"
  label ++ c.leftText ++ " " ++ c.relation.symbol ++ " " ++ plain c.rhs ++ penalty

end Constraint

/-! ## Refusals -/

/-- Why an edit was refused. -/
inductive Error (α : Type) where
  | foreignVariable (v : Variable)
  | unknownConstraint (id : ConstraintId)
  | invalidPenalty (penalty : α)
  deriving Repr

def Error.message : Error Float → String
  | foreignVariable v => "variable " ++ v.label ++ " belongs to another specification"
  | unknownConstraint id => "constraint " ++ id.label ++ " is not part of this specification"
  | invalidPenalty penalty => "invalid penalty " ++ plain penalty ++ ": must be in (0, 1]"

end SoftLinear
