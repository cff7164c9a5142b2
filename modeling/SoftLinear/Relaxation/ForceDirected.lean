import SoftLinear.Relaxation.Basic

/-!
# Force-directed relaxation

Every violated constraint is a spring that pulls its variables towards the plane where it holds.  In each round every
variable moves by the average of the moves its springs ask for, weighted by their stiffness and scaled by a magnitude
that cools down.  Then the hard constraints are enforced by a few passes of projections over them alone.  The run ends
early once the hard constraints hold and the soft ones no longer change.
-/

namespace SoftLinear

/-- Springs for all constraints, projections for the hard ones. -/
structure ForceDirected (α : Type) where
  budget : Nat
  /-- The factor by which the magnitude of the forces fades from round to round. -/
  cooling : α
  /-- The passes over the hard constraints in each round, at most. -/
  hardSweeps : Nat
  prepared : List ConstraintId
  deriving Repr

namespace ForceDirected

variable {α : Type} [Scalar α]

def defaultCooling : α := 0.98

def defaultHardSweeps : Nat := 10

/-- The relaxation with the settings used when none are given. -/
def standard : ForceDirected α := ⟨defaultBudget, defaultCooling, defaultHardSweeps, []⟩

/-- The stiffness of a spring: one value for hard constraints, one for penalties above `0.8`, else the penalty. -/
def stiffness (penalty : α) : α :=
  if hardPenalty ≤ penalty then 1e6 else if 0.8 < penalty then 1e3 else penalty

abbrev Spring (α : Type) := ConstraintId × Constraint α

/-- The pull on a variable and the stiffness behind it. -/
structure Pull (α : Type) where
  pull : α
  weight : α
  residuals : Residuals α

/-- Adds the pull of one spring; one that is at rest or has no weights does not pull. -/
def Pull.add (tolerance : α) (v : Variable) (point : Point α) (f : Pull α) (x : Spring α) : Pull α :=
  let deficit := x.2.deficit point
  let residuals := f.residuals.record x.1 (Scalar.abs deficit)
  if Scalar.abs deficit < tolerance ∨ x.2.normSquared < nearZero then { f with residuals := residuals }
  else
    let k := stiffness x.2.penalty
    { pull := f.pull + k * deficit / x.2.normSquared * x.2.coefficientOf v
      weight := f.weight + k
      residuals := residuals }

/-- Moves one variable by the average pull of its springs. -/
def pullVariable (p : Progress α) (x : Variable × List (Spring α)) : Progress α :=
  let f := x.2.foldl (Pull.add p.scope.tolerance x.1 p.point) ⟨0, 0, p.residuals⟩
  if 0 < f.weight then
    { p with
      point := p.point.move x.1 (p.strength * f.pull / f.weight)
      residuals := f.residuals
      scope := p.scope.tally (·.recordProjections 1) }
  else { p with residuals := f.residuals }

/-- Projects onto one hard constraint; the flag collects whether some residual was not below the tolerance. -/
def enforce (acc : Progress α × Bool) (c : Constraint α) : Progress α × Bool :=
  let projection := c.project acc.1.point 1
  ({ acc.1 with
      point := projection.point
      scope := acc.1.scope.tally (·.recordProjections projection.moved.toNat) },
    acc.2 || decide (acc.1.scope.tolerance ≤ projection.residual))

/-- Passes over the hard constraints until one of them finds every residual below the tolerance. -/
def enforceHard (hard : List (Constraint α)) : Nat → Progress α → Progress α
  | 0, p => p
  | n + 1, p =>
    let (p, violated) := hard.foldl enforce (p, false)
    let p := { p with scope := p.scope.tally Stats.recordSweep }
    if violated then enforceHard hard n p else p

/-- The variables of constraints in order of first appearance. -/
def participants (cs : List (Constraint α)) : List Variable :=
  (cs.flatMap fun c => c.terms.map (·.var)).foldl (fun seen v => if seen.contains v then seen else seen ++ [v]) []

/-- The springs at a variable: the constraints of a list that name it, in ascending order. -/
def springs (s : System α) (members : List ConstraintId) (v : Variable) : List (Spring α) :=
  s.resolve ((s.activeOf v).filter members.contains)

/-- One round of forces and projections. -/
def round (cooling : α) (hardSweeps : Nat) (cs : List (Constraint α)) (nodes : List (Variable × List (Spring α)))
    (budget : Nat) (p : Progress α) : Progress α :=
  let p := enforceHard (cs.filter (·.isHard)) hardSweeps (nodes.foldl pullVariable p)
  let p := { p with strength := p.strength * cooling }.close cs budget
  p.announce (some p.summary.softSquared)

/-- Whether the hard constraints hold and a round has hardly changed the soft ones. -/
def settled (before after : Progress α) : Bool :=
  decide (after.summary.hard < after.scope.tolerance) &&
    decide (Scalar.abs (before.summary.softSquared - after.summary.softSquared) < after.scope.tolerance)

/-- Rounds over the prepared constraints that are enabled. -/
def relax (r : Run α (ForceDirected α)) (budget : Nat) : Run α (ForceDirected α) × Outcome α :=
  let f := r.engine
  let list := r.system.live f.prepared
  let cs := list.map (·.2)
  let nodes := (participants cs).map fun v => (v, springs r.system (list.map (·.1)) v)
  let p := Progress.start cs r.system 1 r.scope
  let p := p.iterate (round f.cooling f.hardSweeps cs nodes budget) settled budget
  p.finish f r.system "ForceDirected" none

instance : Relaxation α (ForceDirected α) where
  prepare r ids := { r with engine := { r.engine with prepared := ids } }
  relax := relax
  withdraw f _ id := ({ f with prepared := id.erase f.prepared }, true)
  budget := ForceDirected.budget
  name _ := "ForceDirected"

end ForceDirected

end SoftLinear
