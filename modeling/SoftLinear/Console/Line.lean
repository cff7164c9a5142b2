import SoftLinear.Console.Record
import SoftLinear.Decimal.Text

/-!
# Console lines

The start and the end of a solve and every suspension have a line on the console; other events have none.

A colour is switched on before a text and back to the usual one behind it, and bold type encloses the colours within it.
-/

namespace SoftLinear

namespace Text

/-- The colours in use. -/
inductive Colour where
  | yellow
  | white
  | brightBlack
  | brightRed
  | brightGreen
  | brightYellow
  | brightBlue
  | brightMagenta
  | brightCyan
  deriving DecidableEq, Repr

def Colour.code : Colour → String
  | yellow => "33"
  | white => "37"
  | brightBlack => "90"
  | brightRed => "91"
  | brightGreen => "92"
  | brightYellow => "93"
  | brightBlue => "94"
  | brightMagenta => "95"
  | brightCyan => "96"

/-- A terminal code. -/
def control (code : String) : String := "\x1b[" ++ code ++ "m"

/-- A text in a colour. -/
def paint (c : Colour) (s : String) : String := control c.code ++ s ++ control "39"

def bold (s : String) : String := control "1" ++ s ++ control "0"

end Text

namespace Console

open Text

/-- Minutes and seconds, seconds with two places, or milliseconds, by the length of a time. -/
def duration (ms : Nat) : String :=
  if ms < 1000 then toString ms ++ "ms"
  else if ms < 60000 then fixedPoint 2 (Float.ofNat ms / 1000) ++ "s"
  else toString (ms / 60000) ++ "m " ++ toString (ms % 60000 / 1000) ++ "s"

/-- How times are written on the console: the stamp of a line, and the text of a time spent, given in milliseconds. -/
structure Clock where
  stamp : String
  spent : Nat → String

namespace Record

/-- The beginning of a line: time, level and solver. -/
def heading (r : Record) (clock : Clock) : String :=
  paint .brightBlack clock.stamp ++ " " ++ paint .brightGreen "INFO" ++ " " ++
    paint .brightCyan ("[" ++ r.solver.getD "Solver" ++ "]")

/-- What is at work: the relaxation, and the strategy over it if there is one. -/
def engine (r : Record) : String :=
  match r.strategy, r.relaxation with
  | some strategy, some relaxation => strategy ++ " over " ++ relaxation
  | none, some relaxation => relaxation
  | _, none => "unknown"

/-- A count, zero when it is missing. -/
def number (n : Option Nat) : String := toString (n.getD 0)

def startLine (r : Record) (clock : Clock) : String :=
  r.heading clock ++ " Solving started: engine (" ++ bold (paint .white r.engine) ++ "), constraint count (" ++
    paint .brightYellow (number r.constraintCount) ++ "), variable count (" ++
    paint .brightYellow (number r.variableCount) ++ ")"

def statusText (r : Record) : String :=
  let status := r.status.getD "unknown"
  bold (paint (if status = "optimal" then .brightGreen else if status = "suboptimal" then .yellow else .brightRed) status)

/-- The line for the end of a solve; what was not recorded is left out. -/
def endLine (r : Record) (clock : Clock) : String :=
  let error := match r.maxError with
    | some x => ", max error (" ++ paint .brightMagenta (scientific 3 x) ++ ")"
    | none => ""
  let projections := match r.projections with
    | some n => ", projections (" ++ paint .white (toString n) ++ ")"
    | none => ""
  let suspended := match r.suspended with
    | some n => ", suspended (" ++ paint (if 0 < n then .brightRed else .brightGreen) (toString n) ++
        "), sub-solves (" ++ paint .white (number r.relaxCalls) ++ ")"
    | none => ""
  r.heading clock ++ " Solving ended: status (" ++ r.statusText ++ "), time spent (" ++
    paint .yellow (clock.spent (r.duration.getD 0)) ++ "), sweeps (" ++ paint .white (number r.sweeps) ++ ")" ++
    error ++ projections ++ suspended

def suspendedLine (r : Record) : String :=
  "    " ++ paint .brightBlue "->" ++ " suspended " ++ paint .white (r.constraint.getD "?") ++ " (penalty " ++
    paint .yellow (plain (r.penalty.getD 0)) ++ ")"

/-- The line for a record, if it has one. -/
def line? (r : Record) (clock : Clock) : Option String :=
  match r.event with
  | some "solve_start" => some (r.startLine clock)
  | some "solve_end" => some (r.endLine clock)
  | some "constraint_suspended" => some r.suspendedLine
  | _ => none

end Record

/-- The lines for the events that solving caused, up to a level. -/
def lines (clock : Clock) (upTo : Level) (events : List (Event Float)) : List String :=
  (events.filter fun e => e.isFromSolver && e.level.rank ≤ upTo.rank).filterMap fun e => (Record.ofEvent e).line? clock

end Console

end SoftLinear
