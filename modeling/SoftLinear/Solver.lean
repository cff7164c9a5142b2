import SoftLinear.Conflict
import SoftLinear.Event
import SoftLinear.System.Measure

/-!
# Solvers

A solver gives values to the variables of a system and is told about edits, so that it can keep what it has prepared in
step with the system.  There are two of them, and `AnySolver` for whoever chooses between them while the program runs.
-/

namespace SoftLinear

/-- The result of an attempt to solve a system. -/
structure Attempt (α σ : Type) where
  status : Status
  solver : σ
  system : System α
  log : Array (Event α)

/-- The same attempt with the solver seen through a function. -/
def Attempt.map {α σ τ : Type} (f : σ → τ) (a : Attempt α σ) : Attempt α τ := ⟨a.status, f a.solver, a.system, a.log⟩

/-- A way of solving systems.  A solver hears of what the caller adds, enables, disables and removes. -/
class Solver (α : outParam Type) (σ : Type) where
  solve : σ → System α → Attempt α σ
  name : σ → String
  added : σ → System α → ConstraintId → σ := fun s _ _ => s
  enabled : σ → System α → ConstraintId → Bool → σ := fun s _ _ _ => s
  removed : σ → System α → ConstraintId → Constraint α → σ := fun s _ _ _ => s

/-- The values a solve starts from: all zero, or those of the last solve with the unset ones at zero. -/
def System.seed {α : Type} [Scalar α] (s : System α) (reset : Bool) : System α :=
  if reset then s.resetValues else s.fillUnset

/-! ## Direct solver

One relaxation over the enabled constraints in the order in which they were added.  The relaxation is prepared only when
the list of enabled constraints is not the one it was prepared for; a removal is passed on to it. -/

/-- A solver that runs one relaxation. -/
structure DirectSolver (ρ : Type) where
  engine : ρ
  reset : Bool
  /-- The list that the relaxation is prepared for. -/
  prepared : Option (List ConstraintId)
  stats : Stats

namespace DirectSolver

variable {α ρ : Type}

/-- A solver that has not solved anything yet. -/
def new (engine : ρ) (reset : Bool) : DirectSolver ρ := ⟨engine, reset, none, {}⟩

variable [Scalar α] [Relaxation α ρ]

/-- Prepares the relaxation for a list, unless it is prepared for it already. -/
def ready (d : DirectSolver ρ) (r : Run α ρ) (enabled : List ConstraintId) : Run α ρ :=
  if d.prepared = some enabled then r else Relaxation.prepare r enabled

def solve (d : DirectSolver ρ) (s : System α) : Attempt α (DirectSolver ρ) :=
  let s := s.seed d.reset
  let enabled := s.enabledIds
  let r := d.ready ⟨d.engine, s, { tolerance := s.tolerance }⟩ enabled
  let started : Event α := .solveStarted "Relaxation" none (Relaxation.name r.engine) r.system.order.length
    r.system.attached.length
  let (r, outcome) := Relaxation.relax { r with scope := r.scope.report started } (Relaxation.budget r.engine)
  let scope := r.scope.report
    (.relaxationSolved "Relaxation" outcome.status outcome.sweeps outcome.maxError r.scope.stats.projections)
  { status := outcome.status
    solver := { d with engine := r.engine, prepared := some enabled, stats := scope.stats }
    system := r.system
    log := scope.log }

/-- Passes the removal of a constraint on to the relaxation. -/
def removed (d : DirectSolver ρ) (s : System α) (id : ConstraintId) : DirectSolver ρ :=
  let (engine, usable) := Relaxation.withdraw d.engine s id
  { d with engine := engine, prepared := if usable then d.prepared.map id.erase else none }

instance : Solver α (DirectSolver ρ) where
  solve := solve
  name _ := "Relaxation"
  added d _ _ := { d with prepared := none }
  removed d s id _ := removed d s id

end DirectSolver

/-! ## Resolving solver

A relaxation under a strategy that suspends constraints when they cannot all be satisfied.  What a solve suspends stays
disabled until the next solve, which takes it up again; what the caller disables stays disabled. -/

/-- A solver that resolves conflicts. -/
structure ResolvingSolver (ρ : Type) where
  strategy : Strategy
  engine : ρ
  reset : Bool
  /-- The budget of sweeps for each attempt, if it is not the relaxation's own. -/
  budget : Option Nat
  /-- The constraints that the last solve suspended. -/
  suspended : List ConstraintId
  stats : Stats

namespace ResolvingSolver

variable {α ρ : Type}

def new (strategy : Strategy) (engine : ρ) (reset : Bool) (budget : Option Nat) : ResolvingSolver ρ :=
  ⟨strategy, engine, reset, budget, [], {}⟩

variable [Scalar α] [Relaxation α ρ]

/-- The system that a solve works on: seeded, and with the last suspensions lifted. -/
def lift (d : ResolvingSolver ρ) (s : System α) : System α := (s.seed d.reset).setEnabledAll d.suspended true

def solve (d : ResolvingSolver ρ) (s : System α) : Attempt α (ResolvingSolver ρ) :=
  let s := d.lift s
  let sorted := s.sortByPriority s.enabledIds
  let budget := d.budget.getD (Relaxation.budget d.engine)
  let scope : Scope α := { tolerance := s.tolerance }
  let scope := scope.report (.solveStarted "ConflictResolving" (some d.strategy.name) (Relaxation.name d.engine)
    sorted.length s.attached.length)
  let (r, resolution) := d.strategy.resolve ⟨d.engine, s, scope⟩ sorted budget
  let scope := r.scope.report (.conflictsResolved "ConflictResolving" resolution.status resolution.suspended.length
    r.scope.stats.relaxCalls r.scope.stats.sweeps)
  { status := resolution.status
    solver := { d with engine := r.engine, suspended := resolution.suspended, stats := scope.stats }
    system := r.system
    log := scope.log }

/-- Forgets a removed constraint. -/
def removed (d : ResolvingSolver ρ) (s : System α) (id : ConstraintId) : ResolvingSolver ρ :=
  { d with engine := (Relaxation.withdraw d.engine s id).1, suspended := id.erase d.suspended }

instance : Solver α (ResolvingSolver ρ) where
  solve := solve
  name _ := "ConflictResolving"
  enabled d _ id _ := { d with suspended := id.erase d.suspended }
  removed d s id _ := removed d s id

end ResolvingSolver

/-! ## The choice of a solver -/

/-- A solver with or without conflict resolution. -/
inductive AnySolver (ρ : Type) where
  | direct (d : DirectSolver ρ)
  | resolving (d : ResolvingSolver ρ)

namespace AnySolver

variable {α ρ : Type} [Scalar α] [Relaxation α ρ]

instance : Solver α (AnySolver ρ) where
  solve
    | direct d, s => (Solver.solve d s).map direct
    | resolving d, s => (Solver.solve d s).map resolving
  name
    | direct d => Solver.name d
    | resolving d => Solver.name d
  added
    | direct d, s, id => direct (Solver.added d s id)
    | resolving d, s, id => resolving (Solver.added d s id)
  enabled
    | direct d, s, id, flag => direct (Solver.enabled d s id flag)
    | resolving d, s, id, flag => resolving (Solver.enabled d s id flag)
  removed
    | direct d, s, id, c => direct (Solver.removed d s id c)
    | resolving d, s, id, c => resolving (Solver.removed d s id c)

end AnySolver

end SoftLinear
