import SoftLinear.System.Edit

/-!
# Measures

What a system says about itself at its current values: how much its constraints are violated, which of them are, and
in which order they matter.
-/

namespace SoftLinear

variable {α : Type} [Scalar α]

namespace System

/-! ## Violations -/

def error (s : System α) (id : ConstraintId) : Except (Error α) α := (s.require id).map (·.error s.values)

def isSatisfied (s : System α) (id : ConstraintId) (tolerance : α) : Except (Error α) Bool :=
  (s.require id).map (·.isSatisfied s.values tolerance)

/-- The enabled constraints, in the order in which they were added. -/
def enabledConstraints (s : System α) : List (Constraint α) := (s.live s.order).map (·.2)

/-- The largest violation among constraints at a point. -/
def worst (cs : List (Constraint α)) (p : Point α) : α :=
  cs.foldl (fun acc c => Scalar.larger acc (Scalar.abs (c.error p))) 0

/-- The largest violation among the enabled constraints. -/
def maxError (s : System α) : α := worst s.enabledConstraints s.values

/-- The largest violation among the enabled hard constraints. -/
def hardError (s : System α) : α := worst (s.enabledConstraints.filter (·.isHard)) s.values

/-- The sum of the squared violations of the enabled constraints. -/
def squaredError (s : System α) : α :=
  let p := s.values
  s.enabledConstraints.foldl (fun acc c => acc + c.error p * c.error p) 0

/-- The enabled constraints that do not hold within the tolerance. -/
def unsatisfied (s : System α) : List ConstraintId :=
  let p := s.values
  ((s.live s.order).filter fun x => !x.2.isSatisfied p s.tolerance).map (·.1)

/-! ## Priority -/

/-- The penalty of a constraint, zero for an identifier that names none. -/
def penaltyOf (s : System α) (id : ConstraintId) : α :=
  match s.constraint? id with
  | some c => c.penalty
  | none => 0

/-- Puts an identifier in front of the first one whose penalty is not greater. -/
def insertByPriority (s : System α) (id : ConstraintId) : List ConstraintId → List ConstraintId
  | [] => [id]
  | a :: rest => if s.penaltyOf a ≤ s.penaltyOf id then id :: a :: rest else a :: s.insertByPriority id rest

/-- Sorts identifiers by falling penalty; equal penalties keep their order. -/
def sortByPriority (s : System α) (ids : List ConstraintId) : List ConstraintId :=
  ids.foldr s.insertByPriority []

/-- All constraints by falling penalty. -/
def byPriority (s : System α) : List ConstraintId := s.sortByPriority s.order

end System

end SoftLinear
