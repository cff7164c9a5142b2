import SoftLinear.Pivot.Selector
import SoftLinear.Relaxation.Basic

/-!
# Gauss–Seidel relaxation

Every sweep visits the pivot entries and moves only the pivot of each.  The move that would satisfy the constraint is
weighted by the pivot's share in the constraint, and by the penalty when the constraint is soft: a dominant pivot lands
on the plane, a weak one only moves towards it.  As in the Kaczmarz relaxation, a sweep with soft constraints ends with a
pass over the hard ones.
-/

namespace SoftLinear

/-- Moves of one pivot per entry. -/
structure GaussSeidel (α γ : Type) where
  selector : Selector γ
  budget : Nat
  factor : α
  prepared : List ConstraintId
  entries : List PivotEntry
  /-- The duplicates of a selection that the statistics do not count yet. -/
  pendingSelection : Option Nat
  deriving Repr

namespace GaussSeidel

variable {α γ : Type} [Scalar α]

/-- The relaxation with a selector and the settings used when none are given. -/
def standard (selector : Selector γ) : GaussSeidel α γ := ⟨selector, defaultBudget, 1, [], [], none⟩

/-- The weight of a move: the pivot's share, times the penalty when the constraint is soft. -/
def weight (factor : α) (c : Constraint α) (coefficient : α) : α :=
  let share := factor * Scalar.abs coefficient / c.absSum
  if c.isHard then share else share * c.penalty

/-- Moves a pivot towards the value that satisfies the constraint; the flag tells whether it moved.  An inequality that
holds and a pivot without weight leave the point alone. -/
def movePivot (factor : α) (c : Constraint α) (pivot : Variable) (deficit : α) (p : Point α) : Point α × Bool :=
  if c.isAtRest deficit then (p, false)
  else
    let coefficient := c.coefficientOf pivot
    if Scalar.abs coefficient ≤ nearZero then (p, false)
    else (p.move pivot (weight factor c coefficient * deficit / coefficient), true)

/-- Visits one entry; a primary entry records the residual that it met. -/
def visit (factor : α) (p : Progress α) (x : PivotEntry × Constraint α) : Progress α :=
  let deficit := x.2.deficit p.point
  let (point, moved) := movePivot factor x.2 x.1.pivot deficit p.point
  { p with
    point := point
    residuals := if x.1.duplicate then p.residuals else p.residuals.record x.1.constraint (Scalar.abs deficit)
    scope := p.scope.tally (·.recordProjections moved.toNat) }

/-- Visits an entry of a hard constraint once more. -/
def enforce (factor : α) (p : Progress α) (x : PivotEntry × Constraint α) : Progress α :=
  let (point, moved) := movePivot factor x.2 x.1.pivot (x.2.deficit p.point) p.point
  { p with point := point, scope := p.scope.tally (·.recordProjections moved.toNat) }

/-- One sweep over the entries of enabled constraints. -/
def sweep (factor : α) (cs : List (Constraint α)) (entries : List (PivotEntry × Constraint α)) (budget : Nat)
    (p : Progress α) : Progress α :=
  let p := entries.foldl (visit factor) p
  let p := if cs.any (!·.isHard) then (entries.filter (·.2.isHard)).foldl (enforce factor) p else p
  let p := { p with scope := p.scope.tally Stats.recordSweep }
  (p.close cs budget).announce none

omit [Scalar α] in
/-- The entries whose constraint exists and is enabled, with that constraint. -/
def liveEntries (s : System α) (entries : List PivotEntry) : List (PivotEntry × Constraint α) :=
  (entries.filterMap fun e => (s.constraint? e.constraint).map fun c => (e, c)).filter (·.2.enabled)

/-- Sweeps over the entries of the last selection. -/
def relax (r : Run α (GaussSeidel α γ)) (budget : Nat) : Run α (GaussSeidel α γ) × Outcome α :=
  let g := r.engine
  let cs := (r.system.live g.prepared).map (·.2)
  -- a selection is counted by the first run that uses it
  let scope := match g.pendingSelection with
    | some duplicates => r.scope.tally (·.recordPivotSelection duplicates)
    | none => r.scope
  let p := Progress.start cs r.system g.factor scope
  let p := p.iterate (sweep g.factor cs (liveEntries r.system g.entries) budget) (fun _ _ => false) budget
  p.finish { g with pendingSelection := none } r.system "GaussSeidel" (some g.selector.name)

/-- Chooses the pivots of a list of constraints for all attached variables, and notes them in the constraints. -/
def prepare [Generator γ] (r : Run α (GaussSeidel α γ)) (ids : List ConstraintId) : Run α (GaussSeidel α γ) :=
  let (selection, selector) := r.engine.selector.select r.system ids r.system.attached none
  { engine := { r.engine with
      selector := selector
      prepared := ids
      entries := selection.entries
      pendingSelection := some (PivotEntry.duplicates selection.entries) }
    system := PivotEntry.apply selection.entries r.system
    scope := r.scope.report (selector.event selection) }

instance [Generator γ] : Relaxation α (GaussSeidel α γ) where
  prepare := prepare
  relax := relax
  withdraw g s id :=
    ({ g with entries := PivotEntry.withdraw s g.entries id, prepared := id.erase g.prepared }, true)
  budget := GaussSeidel.budget
  name _ := "GaussSeidel"

end GaussSeidel

end SoftLinear
