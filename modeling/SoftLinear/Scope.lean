import SoftLinear.Event

/-!
# Scopes

What the parts of one solve share: the tolerance they work to, the statistics they keep, and the events they report.
-/

namespace SoftLinear

/-- Counts of what happened in one solve. -/
structure Stats where
  /-- The reading of the clock when the solve began, in milliseconds. -/
  startedAt : Option Nat := none
  sweeps : Nat := 0
  /-- Moves of the point on behalf of a constraint or variable. -/
  projections : Nat := 0
  relaxCalls : Nat := 0
  pivotSelections : Nat := 0
  duplicates : Nat := 0
  suspended : Nat := 0
  deriving DecidableEq, Repr, Inhabited

namespace Stats

def start (s : Stats) (now : Nat) : Stats := { s with startedAt := some now }

/-- The milliseconds since the start; none have passed before it. -/
def elapsed (s : Stats) (now : Nat) : Nat :=
  match s.startedAt with
  | some t => now - t
  | none => 0

def recordSweep (s : Stats) : Stats := { s with sweeps := s.sweeps + 1 }

def recordProjections (s : Stats) (n : Nat) : Stats := { s with projections := s.projections + n }

def recordRelaxCall (s : Stats) : Stats := { s with relaxCalls := s.relaxCalls + 1 }

/-- Counts a selection of pivots and the duplicates that it made. -/
def recordPivotSelection (s : Stats) (duplicates : Nat) : Stats :=
  { s with pivotSelections := s.pivotSelections + 1, duplicates := s.duplicates + duplicates }

def recordSuspension (s : Stats) : Stats := { s with suspended := s.suspended + 1 }

/-- Projections per second; zero as long as no time has passed. -/
def rate {α : Type} [Scalar α] (s : Stats) (now : Nat) : α :=
  let seconds : α := (s.elapsed now : α) / 1e3
  if 0 < seconds then (s.projections : α) / seconds else 0

end Stats

/-- What the parts of one solve share. -/
structure Scope (α : Type) where
  tolerance : α
  stats : Stats := {}
  log : Array (Event α) := #[]

namespace Scope

variable {α : Type}

def report (s : Scope α) (e : Event α) : Scope α := { s with log := s.log.push e }

def tally (s : Scope α) (f : Stats → Stats) : Scope α := { s with stats := f s.stats }

end Scope

end SoftLinear
