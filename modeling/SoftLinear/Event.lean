import SoftLinear.Constraint.Basic

/-!
# Statuses and events

How an attempt to solve a system ended, and what happens while a system is edited and solved, as data.  The relaxations
of this library end in `optimal`, `suboptimal` or `infeasible`; `error` stands for a system without a solver, and
`unbounded` and `timeout` are there for other solvers.

An event has a level and a list of named fields; whoever listens decides which levels to keep and how to show them.
-/

namespace SoftLinear

/-- The outcome of an attempt to solve a system: every enabled constraint holds within the tolerance (`optimal`), the hard
ones hold (`suboptimal`), or they could not be satisfied (`infeasible`). -/
inductive Status where
  | optimal
  /-- Also when the hard constraints were still converging as the budget ran out. -/
  | suboptimal
  | infeasible
  | unbounded
  | timeout
  | error
  deriving DecidableEq, Repr, Inhabited

namespace Status

/-- The word for a status. -/
def word : Status → String
  | optimal => "optimal"
  | suboptimal => "suboptimal"
  | infeasible => "infeasible"
  | unbounded => "unbounded"
  | timeout => "timeout"
  | error => "error"

def name : Status → String
  | optimal => "Optimal"
  | suboptimal => "Suboptimal"
  | infeasible => "Infeasible"
  | unbounded => "Unbounded"
  | timeout => "Timeout"
  | error => "Error"

def ofName? (s : String) : Option Status :=
  [optimal, suboptimal, infeasible, unbounded, timeout, error].find? (·.name = s)

/-- Whether every enabled constraint held. -/
def isOptimal (s : Status) : Bool := s == optimal

/-- Whether the attempt ended with the hard constraints holding or converging. -/
def isFeasible (s : Status) : Bool := s == optimal || s == suboptimal

end Status

/-! ## Events -/

/-- How important an event is. -/
inductive Level where
  | warn
  | info
  | debug
  | trace
  deriving DecidableEq, Repr, Inhabited

/-- The rank of a level: the more important, the lower. -/
def Level.rank : Level → Nat
  | warn => 0
  | info => 1
  | debug => 2
  | trace => 3

def Level.word : Level → String
  | warn => "WARN"
  | info => "INFO"
  | debug => "DEBUG"
  | trace => "TRACE"

/-- Something that happened. -/
inductive Event (α : Type) where
  | toleranceIgnored (tolerance : α)
  | solveSkipped
  | solveStarted (solver : String) (strategy : Option String) (relaxation : String) (constraintCount variableCount : Nat)
  | relaxationSolved (solver : String) (status : Status) (sweeps : Nat) (maxError : α) (projections : Nat)
  | conflictsResolved (solver : String) (status : Status) (suspended relaxCalls sweeps : Nat)
  | sweepEnded (sweep : Nat) (maxError hardError : α) (softSquared : Option α)
  | relaxationEnded (relaxation : String) (selector : Option String) (status : Status) (sweeps : Nat) (maxError : α)
  | pivotsSelected (selector : String) (constraints : Option Nat) (entries duplicates : Nat)
  | constraintSuspended (constraint : ConstraintId) (penalty : α)
  | windowTried (start stop : Nat) (status : Status)
  deriving Repr

/-- The value of a field of an event. -/
inductive Field (α : Type) where
  | text (s : String)
  | count (n : Nat)
  | scalar (x : α)
  deriving Repr

namespace Event

variable {α : Type}

def level : Event α → Level
  | toleranceIgnored .. => .warn
  | solveSkipped => .warn
  | solveStarted .. => .info
  | relaxationSolved .. => .info
  | conflictsResolved .. => .info
  | sweepEnded .. => .trace
  | relaxationEnded .. => .debug
  | pivotsSelected .. => .debug
  | constraintSuspended .. => .debug
  | windowTried .. => .trace

/-- Whether solving caused the event, and not an edit of the system. -/
def isFromSolver : Event α → Bool
  | toleranceIgnored .. => false
  | solveSkipped => false
  | _ => true

def message? : Event α → Option String
  | toleranceIgnored .. => some "ignoring invalid tolerance"
  | solveSkipped => some "no solver configured"
  | _ => none

/-- A field that is there or not. -/
def optional {β : Type} (name : String) (wrap : β → Field α) : Option β → List (String × Field α)
  | some x => [(name, wrap x)]
  | none => []

def fields : Event α → List (String × Field α)
  | toleranceIgnored tolerance => [("tolerance", .scalar tolerance)]
  | solveSkipped => [("event", .text "solve_skipped")]
  | solveStarted solver strategy relaxation constraintCount variableCount =>
    [("event", .text "solve_start"), ("solver", .text solver)] ++ optional "strategy" .text strategy ++
      [("relaxation", .text relaxation), ("constraint_count", .count constraintCount),
        ("variable_count", .count variableCount)]
  | relaxationSolved solver status sweeps maxError projections =>
    [("event", .text "solve_end"), ("solver", .text solver), ("status", .text status.word), ("sweeps", .count sweeps),
      ("max_error", .scalar maxError), ("projections", .count projections)]
  | conflictsResolved solver status suspended relaxCalls sweeps =>
    [("event", .text "solve_end"), ("solver", .text solver), ("status", .text status.word),
      ("suspended", .count suspended), ("relax_calls", .count relaxCalls), ("sweeps", .count sweeps)]
  | sweepEnded sweep maxError hardError softSquared =>
    [("event", .text "sweep"), ("sweep", .count sweep), ("max_error", .scalar maxError),
      ("hard_error", .scalar hardError)] ++ optional "soft_squared_error" .scalar softSquared
  | relaxationEnded relaxation selector status sweeps maxError =>
    [("event", .text "relax_end"), ("relaxation", .text relaxation)] ++ optional "selector" .text selector ++
      [("status", .text status.word), ("sweeps", .count sweeps), ("max_error", .scalar maxError)]
  | pivotsSelected selector constraints entries duplicates =>
    [("event", .text "pivots_selected"), ("selector", .text selector)] ++ optional "constraints" .count constraints ++
      [("entries", .count entries), ("duplicates", .count duplicates)]
  | constraintSuspended constraint penalty =>
    [("event", .text "constraint_suspended"), ("constraint", .text constraint.label), ("penalty", .scalar penalty)]
  | windowTried start stop status =>
    [("event", .text "window"), ("start", .count start), ("end", .count stop), ("status", .text status.word)]

end Event

end SoftLinear
