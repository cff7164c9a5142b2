import SoftLinear.Relaxation.ForceDirected
import SoftLinear.Relaxation.GaussSeidel
import SoftLinear.Relaxation.Kaczmarz

/-!
# Engines

The three relaxations as one type, for whoever chooses between them while the program runs.
-/

namespace SoftLinear

/-- One of the relaxations. -/
inductive Engine (α γ : Type) where
  | kaczmarz (k : Kaczmarz α)
  | gaussSeidel (g : GaussSeidel α γ)
  | forceDirected (f : ForceDirected α)
  deriving Repr

/-- The same run with the state of the relaxation seen through a function. -/
def Run.map {α ρ τ : Type} (f : ρ → τ) (r : Run α ρ) : Run α τ := ⟨f r.engine, r.system, r.scope⟩

namespace Engine

variable {α γ : Type} [Scalar α] [Generator γ]

def prepare (r : Run α (Engine α γ)) (ids : List ConstraintId) : Run α (Engine α γ) :=
  match r.engine with
  | kaczmarz k => (Relaxation.prepare (r.map fun _ => k) ids).map kaczmarz
  | gaussSeidel g => (Relaxation.prepare (r.map fun _ => g) ids).map gaussSeidel
  | forceDirected f => (Relaxation.prepare (r.map fun _ => f) ids).map forceDirected

def relax (r : Run α (Engine α γ)) (budget : Nat) : Run α (Engine α γ) × Outcome α :=
  match r.engine with
  | kaczmarz k => (Relaxation.relax (r.map fun _ => k) budget).map (Run.map kaczmarz) id
  | gaussSeidel g => (Relaxation.relax (r.map fun _ => g) budget).map (Run.map gaussSeidel) id
  | forceDirected f => (Relaxation.relax (r.map fun _ => f) budget).map (Run.map forceDirected) id

def withdraw (e : Engine α γ) (s : System α) (id : ConstraintId) : Engine α γ × Bool :=
  match e with
  | kaczmarz k => (Relaxation.withdraw k s id).map kaczmarz fun usable => usable
  | gaussSeidel g => (Relaxation.withdraw g s id).map gaussSeidel fun usable => usable
  | forceDirected f => (Relaxation.withdraw f s id).map forceDirected fun usable => usable

def budget : Engine α γ → Nat
  | kaczmarz k => k.budget
  | gaussSeidel g => g.budget
  | forceDirected f => f.budget

def name : Engine α γ → String
  | kaczmarz k => Relaxation.name k
  | gaussSeidel g => Relaxation.name g
  | forceDirected f => Relaxation.name f

instance : Relaxation α (Engine α γ) where
  prepare := prepare
  relax := relax
  withdraw := withdraw
  budget := budget
  name := name

end Engine

end SoftLinear
