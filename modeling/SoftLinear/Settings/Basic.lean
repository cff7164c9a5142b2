import SoftLinear.Conflict
import SoftLinear.Decimal.Text

/-!
# Settings

What can be chosen about a solver: the relaxation and its numbers, the pivot selector, and whether and how conflicts are
resolved.  `Settings.validate` refuses numbers that are out of range and names the first of them.
-/

namespace SoftLinear

/-- The relaxation and the numbers it was given. -/
inductive RelaxationSettings (α : Type) where
  | kaczmarz (budget : Option Nat) (factor cooling : Option α)
  | gaussSeidel (budget : Option Nat) (factor : Option α)
  | forceDirected (budget : Option Nat) (cooling : Option α) (hardSweeps : Option Nat)
  deriving Repr

/-- The pivot selector and the number it was given. -/
inductive SelectorSettings where
  | deterministic
  | twoPhase (distance : Option Nat)
  | uniform (retries : Option Nat)
  deriving DecidableEq, Repr

/-- How conflicts are resolved. -/
structure ConflictSettings where
  strategy : Strategy := .binarySearch
  budget : Option Nat := none
  deriving DecidableEq, Repr

/-- What can be chosen about a solver. -/
structure Settings (α : Type) where
  tolerance : Option α := none
  /-- Whether a solve starts from zero. -/
  reset : Bool := false
  seed : Option Nat := none
  relaxation : RelaxationSettings α := .kaczmarz none none none
  selector : SelectorSettings := .deterministic
  conflict : Option ConflictSettings := none
  deriving Repr

namespace Settings

/-- A number that is out of range. -/
inductive Problem (α : Type) where
  | notPositive (field : String) (value : α)
  | notInUnit (field : String) (value : α)
  | notBelowTwo (field : String) (value : α)
  | zero (field : String)
  deriving Repr

/-- What is wrong with a number. -/
def Problem.reason : Problem Float → String
  | notPositive field value => field ++ " must be positive, got " ++ plain value
  | notInUnit field value => field ++ " must be in (0, 1], got " ++ plain value
  | notBelowTwo field value => field ++ " must be in (0, 2), got " ++ plain value
  | zero field => field ++ " must be at least 1"

def Problem.message (p : Problem Float) : String := "Invalid configuration: " ++ p.reason

/-- The sentence for a solver that could not be made because of a problem. -/
def Problem.solverMessage (p : Problem Float) : String := "Configuration error: " ++ p.message

variable {α : Type} [Scalar α]

/-- Refuses a scalar that is given and does not pass a test. -/
def check (test : α → Bool) (problem : α → Problem α) : Option α → Except (Problem α) Unit
  | some value => if test value then .ok () else .error (problem value)
  | none => .ok ()

/-- Refuses a scalar that is not positive and finite. -/
def positive (field : String) (value : Option α) : Except (Problem α) Unit :=
  check (fun x => Scalar.isFinite x && decide (0 < x)) (.notPositive field) value

def inUnit (field : String) (value : Option α) : Except (Problem α) Unit :=
  check (fun x => decide (0 < x) && decide (x ≤ 1)) (.notInUnit field) value

def belowTwo (field : String) (value : Option α) : Except (Problem α) Unit :=
  check (fun x => decide (0 < x) && decide (x < 2.0)) (.notBelowTwo field) value

omit [Scalar α] in
def nonzero (field : String) (value : Option Nat) : Except (Problem α) Unit :=
  if value = some 0 then .error (.zero field) else .ok ()

/-- Refuses a relaxation with a number that is out of range. -/
def validateRelaxation : RelaxationSettings α → Except (Problem α) Unit
  | .kaczmarz budget factor cooling => do
    nonzero "relaxation.max_iterations" budget
    belowTwo "relaxation.relaxation_factor" factor
    inUnit "relaxation.cooling_factor" cooling
  | .gaussSeidel budget factor => do
    nonzero "relaxation.max_iterations" budget
    belowTwo "relaxation.relaxation_factor" factor
  | .forceDirected budget cooling hardSweeps => do
    nonzero "relaxation.max_iterations" budget
    nonzero "relaxation.hard_sweeps" hardSweeps
    inUnit "relaxation.cooling_factor" cooling

omit [Scalar α] in
/-- Refuses a selector with a number that is out of range. -/
def validateSelector : SelectorSettings → Except (Problem α) Unit
  | .deterministic => .ok ()
  | .twoPhase distance => nonzero "pivot_selector.distance" distance
  | .uniform retries => nonzero "pivot_selector.max_retries" retries

/-- Refuses settings with a number that is out of range; the first such number is named. -/
def validate (s : Settings α) : Except (Problem α) Unit := do
  positive "tolerance" s.tolerance
  validateRelaxation s.relaxation
  validateSelector s.selector
  nonzero "conflict_resolution.max_iterations" (s.conflict.bind (·.budget))

end Settings

end SoftLinear
