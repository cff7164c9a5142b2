import SoftLinear.Scope
import SoftLinear.System.Basic

/-!
# Relaxations

A relaxation sweeps over a prepared list of constraints and moves the values of the variables until every constraint
holds within the tolerance or the budget of sweeps is used up.  `Relaxation` is the interface; what a run measures and
how it is judged is the same for all relaxations and stands here:

* `Summary.measure` takes the residuals of the constraints at a point;
* `Progress` is the state of a run between two sweeps, and `Progress.iterate` the loop;
* `Progress.classify` turns the last residuals into a `Status`.
-/

namespace SoftLinear

def defaultBudget : Nat := 1000

/-- Residuals by constraint, in ascending order. -/
abbrev Residuals (α : Type) := List (ConstraintId × α)

namespace Residuals

variable {α : Type}

/-- Records the residual of a constraint in place of an earlier one. -/
def record (id : ConstraintId) (residual : α) : Residuals α → Residuals α
  | [] => [(id, residual)]
  | (a, r) :: rest =>
    if id.index < a.index then (id, residual) :: (a, r) :: rest
    else if id = a then (id, residual) :: rest
    else (a, r) :: record id residual rest

/-- The recorded residual of a constraint, zero if there is none. -/
def of [Scalar α] (rs : Residuals α) (id : ConstraintId) : α :=
  match rs.find? (·.1 = id) with
  | some (_, r) => r
  | none => 0

end Residuals

/-- The result of one run of a relaxation. -/
structure Outcome (α : Type) where
  status : Status
  sweeps : Nat
  maxError : α
  hardError : α
  /-- The residual of each constraint as the last sweep met it. -/
  residuals : Residuals α

/-- A relaxation at work: its own state, the system it works on, and the scope of the solve. -/
structure Run (α ρ : Type) where
  engine : ρ
  system : System α
  scope : Scope α

/-- An engine that moves the values of a system towards satisfying a prepared list of constraints. -/
class Relaxation (α : outParam Type) (ρ : Type) where
  /-- Installs the list of constraints to sweep over, in sweep order. -/
  prepare : Run α ρ → List ConstraintId → Run α ρ
  relax : Run α ρ → Nat → Run α ρ × Outcome α
  /-- Drops a removed constraint from the prepared list; the flag tells whether the rest can be used as it is. -/
  withdraw : ρ → System α → ConstraintId → ρ × Bool := fun r _ _ => (r, false)
  budget : ρ → Nat
  name : ρ → String

variable {α : Type} [Scalar α]

/-! ## Residuals of a list of constraints -/

/-- The residuals of a list of constraints at a point: the largest, the largest of a hard constraint, and the sum of the
squares of the soft ones. -/
structure Summary (α : Type) where
  max : α
  hard : α
  softSquared : α

namespace Summary

def zero : Summary α := ⟨0, 0, 0⟩

/-- Takes the residual of one more constraint. -/
def add (p : Point α) (s : Summary α) (c : Constraint α) : Summary α :=
  let residual := Scalar.abs (c.error p)
  { max := Scalar.larger s.max residual
    hard := if c.isHard then Scalar.larger s.hard residual else s.hard
    softSquared := if c.isHard then s.softSquared else s.softSquared + residual * residual }

/-- Takes the residuals of constraints at a point. -/
def measure (cs : List (Constraint α)) (p : Point α) : Summary α := cs.foldl (add p) zero

end Summary

/-! ## Runs -/

/-- The state of a run between two sweeps. -/
structure Progress (α : Type) where
  point : Point α
  /-- The residuals as the last sweep met them. -/
  residuals : Residuals α
  /-- The strength of the moves that fade from sweep to sweep. -/
  strength : α
  sweeps : Nat
  summary : Summary α
  /-- The residual of the hard constraints at half of the budget. -/
  checkpoint : Option α
  scope : Scope α

/-- A hard residual that ended below this share of the residual at half of the budget counts as converging. -/
def convergingShare : α := 0.5

namespace Progress

def start (cs : List (Constraint α)) (s : System α) (strength : α) (scope : Scope α) : Progress α where
  point := s.values
  residuals := []
  strength := strength
  sweeps := 0
  summary := Summary.measure cs s.values
  checkpoint := none
  scope := scope.tally Stats.recordRelaxCall

/-- Closes a sweep: measures the residuals, and notes the hard one when the sweep is the first at or after half of the
budget. -/
def close (cs : List (Constraint α)) (budget : Nat) (p : Progress α) : Progress α :=
  let sweeps := p.sweeps + 1
  let summary := Summary.measure cs p.point
  { p with
    sweeps := sweeps
    summary := summary
    checkpoint := p.checkpoint.or (if budget / 2 ≤ sweeps then some summary.hard else none) }

omit [Scalar α] in
/-- Reports the sweep that was just closed. -/
def announce (p : Progress α) (softSquared : Option α) : Progress α :=
  { p with scope := p.scope.report (.sweepEnded p.sweeps p.summary.max p.summary.hard softSquared) }

/-- Sweeps as long as some residual is not below the tolerance, the budget lasts and the run has not settled. -/
def iterate (sweep : Progress α → Progress α) (settled : Progress α → Progress α → Bool) :
    Nat → Progress α → Progress α
  | 0, p => p
  | n + 1, p =>
    if p.scope.tolerance ≤ p.summary.max then
      let q := sweep p
      if settled p q then q else iterate sweep settled n q
    else p

/-- Judges the last residuals: all below the tolerance, or the hard ones, or the hard ones still shrinking fast. -/
def classify (p : Progress α) : Status :=
  if p.summary.max < p.scope.tolerance then .optimal
  else if p.summary.hard < p.scope.tolerance then .suboptimal
  else match p.checkpoint with
    | some mid => if p.summary.hard < mid * convergingShare then .suboptimal else .infeasible
    | none => .infeasible

/-- Ends a run: stores the point in the system, reports, and hands out the result. -/
def finish {ρ : Type} (p : Progress α) (engine : ρ) (s : System α) (relaxation : String) (selector : Option String) :
    Run α ρ × Outcome α :=
  let scope := p.scope.report (.relaxationEnded relaxation selector p.classify p.sweeps p.summary.max)
  (⟨engine, s.storeValues p.point, scope⟩,
    ⟨p.classify, p.sweeps, p.summary.max, p.summary.hard, p.residuals⟩)

end Progress

end SoftLinear
