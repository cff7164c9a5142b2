import SoftLinear.Solver
import SoftLinear.Text.Quoted

/-!
# Models

A model is a system with a solver.  Edits go through the model, so that the solver hears of them; while a solver runs
or listens it sees the bare system.
-/

namespace SoftLinear

/-- A system and the solver that it is solved with. -/
structure Model (α σ : Type) where
  system : System α
  solver : Option σ
  lastStatus : Option Status

namespace Model

variable {α σ : Type}

def new [Scalar α] (id : Nat) (solver : Option σ) : Model α σ := ⟨.empty id, solver, none⟩

variable [Scalar α] [Solver α σ]

/-- Adds a constraint and tells the solver. -/
def insert (m : Model α σ) (c : Constraint α) : Except (Error α) (Model α σ × ConstraintId) := do
  let (s, id) ← m.system.insert c
  return ({ m with system := s, solver := m.solver.map fun solver => Solver.added solver s id }, id)

/-- Removes a constraint and tells the solver. -/
def erase (m : Model α σ) (id : ConstraintId) : Except (Error α) (Model α σ × Constraint α) := do
  let (s, c) ← m.system.erase id
  return ({ m with system := s, solver := m.solver.map fun solver => Solver.removed solver s id c }, c)

/-- Enables or disables a constraint on behalf of the caller and tells the solver. -/
def setEnabled (m : Model α σ) (id : ConstraintId) (enabled : Bool) : Except (Error α) (Model α σ) := do
  let s ← m.system.setEnabled id enabled
  return { m with system := s, solver := m.solver.map fun solver => Solver.enabled solver s id enabled }

def setPenalty (m : Model α σ) (id : ConstraintId) (penalty : α) : Except (Error α) (Model α σ) := do
  return { m with system := ← m.system.setPenalty id penalty }

def setRightSide (m : Model α σ) (id : ConstraintId) (rightSide : RightSide α) : Except (Error α) (Model α σ) := do
  return { m with system := ← m.system.setRightSide id rightSide }

/-- Sets the tolerance; one that cannot be used is ignored, and reported. -/
def setTolerance (m : Model α σ) (tolerance : α) : Model α σ × Array (Event α) :=
  ({ m with system := m.system.setTolerance tolerance },
    if System.isTolerance tolerance then #[] else #[.toleranceIgnored tolerance])

/-- Solves the system; without a solver the status is an error. -/
def solve (m : Model α σ) : Model α σ × Status × Array (Event α) :=
  match m.solver with
  | some solver =>
    let a := Solver.solve solver m.system
    (⟨a.system, some a.solver, some a.status⟩, a.status, a.log)
  | none => ({ m with lastStatus := some .error }, .error, #[.solveSkipped])

/-- A model in one line: how many variables and constraints it has, its tolerance and the name of its solver. -/
def summary [Solver Float σ] (m : Model Float σ) : String :=
  let solver := match m.solver with
    | some solver => "Some(" ++ Text.quoted (Solver.name solver) ++ ")"
    | none => "None"
  "LinearSpec \x7b variables: " ++ toString m.system.attached.length ++ ", constraints: " ++
    toString m.system.order.length ++ ", tolerance: " ++ precise m.system.tolerance ++ ", solver: " ++ solver ++ " \x7d"

end Model

end SoftLinear
