import SoftLinear.Event
import SoftLinear.Pivot.Deterministic
import SoftLinear.Pivot.Random

/-!
# Selectors

The three ways of choosing pivots behind one interface: `Selector.select` for a whole list of constraints,
`Selector.pivotAt?` for a single one, and `PivotEntry.withdraw` when a constraint is removed.
-/

namespace SoftLinear

/-- A way of choosing pivots, with its source of randomness where it needs one. -/
inductive Selector (γ : Type) where
  | deterministic
  | twoPhase (g : γ) (distance : Nat)
  | uniform (g : γ) (retries : Nat)
  deriving Repr

namespace Selector

variable {α γ : Type}

/-- The distance kept when none is asked for. -/
def defaultDistance : Nat := 3

/-- The draws made when no number is asked for. -/
def defaultRetries : Nat := 8

def name : Selector γ → String
  | deterministic => "Deterministic"
  | twoPhase .. => "TwoPhase"
  | uniform .. => "Random"

/-- Selects the pivots of the enabled constraints of a list, at most as many as a limit allows, with entries for the
variables that need one. -/
def select [Scalar α] [Generator γ] (sel : Selector γ) (s : System α) (ids : List ConstraintId) (vs : List Variable)
    (limit : Option Nat) : Selection × Selector γ :=
  match sel with
  | deterministic => (Deterministic.select s ids vs limit, deterministic)
  | twoPhase g distance =>
    let (selection, g) := TwoPhase.select g distance s ids vs limit
    (selection, twoPhase g distance)
  | uniform g retries =>
    let (selection, g) := Uniform.select g retries s ids vs limit
    (selection, uniform g retries)

/-- The position of the term that the selector prefers in a constraint. -/
def pivotAt? [Scalar α] [Generator γ] (sel : Selector γ) (c : Constraint α) : Option Nat × Selector γ :=
  match sel with
  | deterministic => (c.dominantPivot?, deterministic)
  | twoPhase g distance => (c.dominantPivot?, twoPhase g distance)
  | uniform g retries =>
    let (i, g) := Uniform.pivotAt? retries c g
    (i, uniform g retries)

/-- The event that reports a selection; the uniform selector does not say how many constraints it considered. -/
def event (sel : Selector γ) (selection : Selection) : Event α :=
  let considered := match sel with
    | uniform .. => none
    | _ => some selection.considered
  .pivotsSelected sel.name considered selection.entries.length selection.duplicates

end Selector

end SoftLinear
