import SoftLinear.Model
import SoftLinear.Random
import SoftLinear.Relaxation.Engine
import SoftLinear.Settings.Basic
import SoftLinear.Solver

/-!
# Solvers from settings

What is not set takes its usual value.  A random selector takes the seed of the settings; without one it takes whatever
seed the caller has at hand.
-/

namespace SoftLinear

variable {α : Type} [Scalar α]

namespace SelectorSettings

/-- The selector that settings describe, drawing from the stream of a seed. -/
def selector (s : SelectorSettings) (seed : UInt64) : Selector KeyStream :=
  match s with
  | deterministic => .deterministic
  | twoPhase distance => .twoPhase (.ofSeed seed) (max 1 (distance.getD Selector.defaultDistance))
  | uniform retries => .uniform (.ofSeed seed) (max 1 (retries.getD Selector.defaultRetries))

end SelectorSettings

namespace RelaxationSettings

/-- The relaxation that settings describe; the selector serves where pivots are needed. -/
def engine {γ : Type} (s : RelaxationSettings α) (selector : Selector γ) : Engine α γ :=
  match s with
  | kaczmarz budget factor cooling =>
    .kaczmarz { budget := budget.getD defaultBudget, factor := factor.getD 1, cooling := cooling.getD 1, prepared := [] }
  | gaussSeidel budget factor =>
    let base : GaussSeidel α γ := .standard selector
    .gaussSeidel { base with budget := budget.getD defaultBudget, factor := factor.getD 1 }
  | forceDirected budget cooling hardSweeps =>
    .forceDirected
      { budget := budget.getD defaultBudget
        cooling := cooling.getD ForceDirected.defaultCooling
        hardSweeps := max 1 (hardSweeps.getD ForceDirected.defaultHardSweeps)
        prepared := [] }

end RelaxationSettings

namespace Settings

def engine (s : Settings α) (entropy : UInt64) : Engine α KeyStream :=
  let seed := match s.seed with
    | some n => n.toUInt64
    | none => entropy
  s.relaxation.engine (s.selector.selector seed)

/-- The solver that settings describe, whatever their numbers are. -/
def build (s : Settings α) (entropy : UInt64) : AnySolver (Engine α KeyStream) :=
  match s.conflict with
  | some conflict => .resolving (.new conflict.strategy (s.engine entropy) s.reset conflict.budget)
  | none => .direct (.new (s.engine entropy) s.reset)

/-- The solver that valid settings describe. -/
def solver (s : Settings α) (entropy : UInt64) : Except (Problem α) (AnySolver (Engine α KeyStream)) := do
  s.validate
  return s.build entropy

/-- An empty model with the tolerance and the solver that valid settings describe. -/
def model (s : Settings α) (id : Nat) (entropy : UInt64) :
    Except (Problem α) (Model α (AnySolver (Engine α KeyStream))) := do
  let solver ← s.solver entropy
  let m := Model.new id (some solver)
  return match s.tolerance with
    | some tolerance => (m.setTolerance tolerance).1
    | none => m

/-- The solver used when nothing is chosen. -/
def usual : AnySolver (Engine α KeyStream) := .direct (.new (.kaczmarz Kaczmarz.standard) false)

end Settings

end SoftLinear
