import SoftLinear.Relaxation.Basic

/-!
# Conflicts

When the constraints of a list cannot all be satisfied, a strategy suspends some of them: it disables them and solves
the rest.  The list comes by falling penalty, so what matters least is given up first.

* `Conflict.adding` enables the constraints one at a time and suspends the one that keeps the others from being solved;
* `Conflict.removing` starts with all of them and suspends, as long as they cannot be solved, the last one that the
  failed attempt met violated;
* `Conflict.binarySearch` tries windows of constraints on top of those already accepted.
-/

namespace SoftLinear

/-- What a strategy arrived at: the status, and the suspended constraints in the order of their suspension. -/
structure Resolution where
  status : Status
  suspended : List ConstraintId
  deriving DecidableEq, Repr, Inhabited

namespace Conflict

variable {α ρ : Type}

/-- Enables or disables the constraints of a list. -/
def switch (r : Run α ρ) (ids : List ConstraintId) (enabled : Bool) : Run α ρ :=
  { r with system := r.system.setEnabledAll ids enabled }

/-- Goes back to earlier values. -/
def restore (r : Run α ρ) (values : Point α) : Run α ρ := { r with system := r.system.storeValues values }

/-- Relaxes the enabled constraints of a list. -/
def attempt [Relaxation α ρ] (r : Run α ρ) (sorted : List ConstraintId) (budget : Nat) : Run α ρ × Outcome α :=
  Relaxation.relax (Relaxation.prepare r (r.system.liveIds sorted)) budget

variable [Scalar α]

/-- Disables a constraint for good and reports it. -/
def suspend (r : Run α ρ) (id : ConstraintId) : Run α ρ :=
  let r := switch r [id] false
  let penalty := match r.system.constraint? id with
    | some c => c.penalty
    | none => 0
  { r with scope := (r.scope.tally Stats.recordSuspension).report (.constraintSuspended id penalty) }

/-- Whether a suspended constraint is hard and cannot hold whatever the values are. -/
def isHopeless (s : System α) (tolerance : α) (id : ConstraintId) : Bool :=
  match s.constraint? id with
  | some c => c.isHard && !c.isSatisfiableAlone tolerance
  | none => false

/-- The final status: infeasible when a hopeless constraint had to be suspended. -/
def settle (r : Run α ρ) (suspended : List ConstraintId) (status : Status) : Run α ρ × Resolution :=
  let hopeless := suspended.any (isHopeless r.system r.scope.tolerance)
  (r, ⟨if hopeless then .infeasible else status, suspended⟩)

variable [Relaxation α ρ]

/-! ## Adding

A constraint that keeps the others from being solved is suspended, and the values go back to what they were before
it. -/

/-- Enables the constraints that are still to come, one at a time. -/
def addEach (sorted : List ConstraintId) (budget : Nat) :
    List ConstraintId → Run α ρ → Point α → List ConstraintId → Run α ρ × List ConstraintId
  | [], r, _, suspended => (r, suspended)
  | id :: rest, r, committed, suspended =>
    let (r, outcome) := attempt (switch r [id] true) sorted budget
    if outcome.status.isOptimal then addEach sorted budget rest r r.system.values suspended
    else addEach sorted budget rest (suspend (restore r committed) id) committed (suspended ++ [id])

/-- Resolves the conflicts in a list by adding its constraints one at a time. -/
def adding (r : Run α ρ) (sorted : List ConstraintId) (budget : Nat) : Run α ρ × Resolution :=
  let r := switch r sorted false
  let (r, suspended) := addEach sorted budget sorted r r.system.values []
  settle r suspended .optimal

/-! ## Removing

Each round either ends or disables a constraint of the list, so there is at most one round more than there are
constraints. -/

/-- The last constraint of a list that is enabled and was met violated. -/
def victim? (r : Run α ρ) (sorted : List ConstraintId) (residuals : Residuals α) : Option ConstraintId :=
  (r.system.liveIds sorted).reverse.find? fun id => decide (r.scope.tolerance ≤ residuals.of id)

/-- Suspends constraints until the rest is solved or nothing is left to suspend, in a bounded number of rounds. -/
def removeRounds (sorted : List ConstraintId) (budget : Nat) :
    Nat → Run α ρ → List ConstraintId → Run α ρ × Resolution
  | rounds, r, suspended =>
    let (r, outcome) := attempt r sorted budget
    if outcome.status.isOptimal then settle r suspended outcome.status
    else match victim? r sorted outcome.residuals, rounds with
      | some id, rounds + 1 => removeRounds sorted budget rounds (suspend r id) (suspended ++ [id])
      | _, _ => settle r suspended outcome.status

/-- Resolves the conflicts in a list by suspending violated constraints from its end. -/
def removing (r : Run α ρ) (sorted : List ConstraintId) (budget : Nat) : Run α ρ × Resolution :=
  removeRounds sorted budget sorted.length r []

/-! ## Binary search

Success accepts the window and doubles it for the next attempt; failure halves it.  A window of one constraint that
fails has found a conflict: the constraint is suspended and the search goes on behind it. -/

/-- Tries windows of the constraints that are still to come: the next one, and some others after it.  Either fewer
constraints remain after an attempt, or the window is smaller. -/
def searchWindows (sorted : List ConstraintId) (budget : Nat) (pending : List ConstraintId) (others : Nat)
    (r : Run α ρ) (committed : Point α) (suspended : List ConstraintId) : Run α ρ × List ConstraintId :=
  match pending with
  | [] => (r, suspended)
  | id :: rest =>
    let window := id :: rest.take others
    let start := sorted.length - (id :: rest).length
    let (r, outcome) := attempt (switch r window true) sorted budget
    let r := { r with scope := r.scope.report (.windowTried start (start + window.length) outcome.status) }
    if outcome.status.isOptimal then
      searchWindows sorted budget (rest.drop others) (2 * others + 1) r r.system.values suspended
    else
      let r := restore (switch r window false) committed
      if 1 < window.length then
        searchWindows sorted budget (id :: rest) (window.length / 2 - 1) r committed suspended
      else searchWindows sorted budget rest 0 (suspend r id) committed (suspended ++ [id])
termination_by pending.length * pending.length + min others pending.length
decreasing_by
  · -- accepted: fewer constraints are left, so the width does not matter
    simp only [List.length_drop, List.length_cons]
    generalize rest.length = n
    have h : (n - others) * (n - others) ≤ n * n := Nat.mul_le_mul (by omega) (by omega)
    have : (n + 1) * (n + 1) = n * n + n + n + 1 := by
      rw [Nat.add_mul, Nat.mul_add]; omega
    omega
  · -- halved: the same constraints are left, and the width is smaller
    rename_i several
    simp only [window, List.length_take, List.length_cons] at several ⊢
    generalize (rest.length + 1) * (rest.length + 1) = square
    omega
  · -- suspended: one constraint fewer is left
    simp only [List.length_cons]
    generalize rest.length = n
    have : (n + 1) * (n + 1) = n * n + n + n + 1 := by
      rw [Nat.add_mul, Nat.mul_add]; omega
    omega

/-- Resolves the conflicts in a list by growing and halving windows. -/
def binarySearch (r : Run α ρ) (sorted : List ConstraintId) (budget : Nat) : Run α ρ × Resolution :=
  let r := switch r sorted false
  let (r, suspended) := searchWindows sorted budget sorted 0 r r.system.values []
  settle r suspended .optimal

end Conflict

/-! ## Strategies -/

/-- A way of deciding which constraints to suspend. -/
inductive Strategy where
  | adding
  | removing
  | binarySearch
  deriving DecidableEq, Repr, Inhabited

namespace Strategy

def name : Strategy → String
  | adding => "Adding"
  | removing => "Removing"
  | binarySearch => "BinarySearch"

/-- The word that settings use for a strategy. -/
def word : Strategy → String
  | adding => "adding"
  | removing => "removing"
  | binarySearch => "binary_search"

def ofWord? (s : String) : Option Strategy := [adding, removing, binarySearch].find? (·.word = s)

/-- Resolves the conflicts in a list of constraints, with a budget of sweeps for each attempt. -/
def resolve {α ρ : Type} [Scalar α] [Relaxation α ρ] (strategy : Strategy) (r : Run α ρ) (sorted : List ConstraintId)
    (budget : Nat) : Run α ρ × Resolution :=
  match strategy with
  | adding => Conflict.adding r sorted budget
  | removing => Conflict.removing r sorted budget
  | binarySearch => Conflict.binarySearch r sorted budget

end Strategy

end SoftLinear
