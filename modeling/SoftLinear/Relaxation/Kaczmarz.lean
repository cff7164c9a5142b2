import SoftLinear.Relaxation.Basic

/-!
# Kaczmarz relaxation

Every sweep projects the point onto one constraint after the other.  A hard constraint is projected with the full
factor, a soft one with a share of it that its penalty sets and that cools down from sweep to sweep.  When soft
constraints take part, the sweep ends with a pass over the hard ones alone, so that no soft constraint has the last word.
-/

namespace SoftLinear

/-- Projection onto every constraint in turn. -/
structure Kaczmarz (α : Type) where
  budget : Nat
  factor : α
  /-- The factor by which soft projections fade from sweep to sweep. -/
  cooling : α
  prepared : List ConstraintId
  deriving Repr

namespace Kaczmarz

variable {α : Type} [Scalar α]

/-- The relaxation with the settings used when none are given. -/
def standard : Kaczmarz α := ⟨defaultBudget, 1, 1, []⟩

/-- Projects onto one constraint and records the residual that it met. -/
def visit (k : Kaczmarz α) (p : Progress α) (x : ConstraintId × Constraint α) : Progress α :=
  let factor := if x.2.isHard then k.factor else p.strength * x.2.penalty
  let projection := x.2.project p.point factor
  { p with
    point := projection.point
    residuals := p.residuals.record x.1 projection.residual
    scope := p.scope.tally (·.recordProjections projection.moved.toNat) }

/-- Projects onto one hard constraint once more. -/
def enforce (k : Kaczmarz α) (p : Progress α) (c : Constraint α) : Progress α :=
  let projection := c.project p.point k.factor
  { p with
    point := projection.point
    scope := p.scope.tally (·.recordProjections projection.moved.toNat) }

/-- The pass over the hard constraints that ends a sweep when soft ones take part. -/
def enforceHard (k : Kaczmarz α) (cs : List (Constraint α)) (p : Progress α) : Progress α :=
  if cs.any (!·.isHard) then (cs.filter (·.isHard)).foldl k.enforce p else p

/-- One sweep over the enabled constraints. -/
def sweep (k : Kaczmarz α) (list : List (ConstraintId × Constraint α)) (budget : Nat) (p : Progress α) : Progress α :=
  let cs := list.map (·.2)
  let p := k.enforceHard cs (list.foldl k.visit p)
  let p := { p with strength := p.strength * k.cooling, scope := p.scope.tally Stats.recordSweep }
  (p.close cs budget).announce none

/-- Sweeps over the prepared constraints that are enabled. -/
def relax (r : Run α (Kaczmarz α)) (budget : Nat) : Run α (Kaczmarz α) × Outcome α :=
  let list := r.system.live r.engine.prepared
  let p := Progress.start (list.map (·.2)) r.system r.engine.factor r.scope
  let p := p.iterate (r.engine.sweep list budget) (fun _ _ => false) budget
  p.finish r.engine r.system "Kaczmarz" none

instance : Relaxation α (Kaczmarz α) where
  prepare r ids := { r with engine := { r.engine with prepared := ids } }
  relax := relax
  withdraw k _ id := ({ k with prepared := id.erase k.prepared }, true)
  budget := Kaczmarz.budget
  name _ := "Kaczmarz"

end Kaczmarz

end SoftLinear
