import SoftLinear.Constraint.Basic

/-!
# Residuals

How far a point is from satisfying a constraint.  `Constraint.error` measures the violation, `Constraint.deficit` the
signed amount by which the left side has to move, and `Constraint.project` moves a point along the weights by a share
of that amount.
-/

namespace SoftLinear

/-- A value for each variable, by position. -/
abbrev Point (α : Type) := Array α

variable {α : Type} [Scalar α]

/-- The value of a variable; zero beyond the end. -/
def Point.coord (p : Point α) (v : Variable) : α := p.getD v.index 0

/-- Moves one variable by an amount. -/
def Point.move (p : Point α) (v : Variable) (amount : α) : Point α :=
  p.setIfInBounds v.index (p.coord v + amount)

namespace Constraint

omit [Scalar α] in
/-- Whether a point has a value for every variable of the constraint. -/
def covers (c : Constraint α) (p : Point α) : Bool := c.terms.all fun t => t.var.index < p.size

def lhs (c : Constraint α) (p : Point α) : α := total (c.terms.map fun t => t.coefficient * p.coord t.var)

/-- The violation for a value of the left side: signed for an equality, cut off at zero for an inequality. -/
def errorAt (c : Constraint α) (lhs : α) : α :=
  match c.relation with
  | .eq => c.rhs - lhs
  | .ge => Scalar.larger (c.rhs - lhs) 0
  | .le => Scalar.larger (lhs - c.rhs) 0

def error (c : Constraint α) (p : Point α) : α := c.errorAt (c.lhs p)

/-- The signed amount by which the left side has to move; zero where an inequality holds. -/
def deficit (c : Constraint α) (p : Point α) : α :=
  match c.relation with
  | .eq => c.rhs - c.lhs p
  | .ge => Scalar.larger (c.rhs - c.lhs p) 0
  | .le => Scalar.smaller (c.rhs - c.lhs p) 0

/-- Whether the violation at a point is below a tolerance. -/
def isSatisfied (c : Constraint α) (p : Point α) (tolerance : α) : Bool :=
  decide (Scalar.abs (c.error p) < tolerance)

/-- Whether some point satisfies the constraint: with weights that vanish, only the right side decides. -/
def isSatisfiableAlone (c : Constraint α) (tolerance : α) : Bool :=
  !c.isDegenerate || decide (Scalar.abs (c.errorAt 0) < tolerance)

/-- Whether a deficit asks for no move: the constraint is an inequality that holds. -/
def isAtRest (c : Constraint α) (deficit : α) : Bool := c.relation != .eq && deficit == 0

/-- Moves every variable of the constraint by its weight times a step. -/
def shift (c : Constraint α) (p : Point α) (step : α) : Point α :=
  c.terms.foldl (fun q t => q.move t.var (step * t.coefficient)) p

end Constraint

/-- What projecting a point onto a constraint did; the residual is the magnitude of the deficit before. -/
structure Projection (α : Type) where
  point : Point α
  residual : α
  moved : Bool

/-- Moves a point towards the plane where the sides are equal; at factor one it lands there.  An inequality that holds
and a constraint whose weights vanish leave the point alone. -/
def Constraint.project (c : Constraint α) (p : Point α) (factor : α) : Projection α :=
  let deficit := c.deficit p
  if c.isAtRest deficit then ⟨p, 0, false⟩
  else if c.normSquared < nearZero then ⟨p, Scalar.abs deficit, false⟩
  else ⟨c.shift p (factor * deficit / c.normSquared), Scalar.abs deficit, true⟩

end SoftLinear
