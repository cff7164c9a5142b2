import SoftLinear.Event
import SoftLinear.Text.Quoted

/-!
# Records

What the console takes from an event: the fields it knows, under their names.  A field that is given twice keeps the
later value; a field of another name or kind is passed over.
-/

namespace SoftLinear

namespace Console

/-- The fields of an event that the console shows. -/
structure Record where
  event : Option String := none
  solver : Option String := none
  strategy : Option String := none
  relaxation : Option String := none
  status : Option String := none
  constraint : Option String := none
  constraintCount : Option Nat := none
  variableCount : Option Nat := none
  sweeps : Option Nat := none
  projections : Option Nat := none
  suspended : Option Nat := none
  relaxCalls : Option Nat := none
  /-- The time spent, in milliseconds. -/
  duration : Option Nat := none
  maxError : Option Float := none
  penalty : Option Float := none

namespace Record

def setText (r : Record) (name : String) (s : String) : Record :=
  match name with
  | "event" => { r with event := some s }
  | "solver" => { r with solver := some s }
  | "strategy" => { r with strategy := some s }
  | "relaxation" => { r with relaxation := some s }
  | "status" => { r with status := some s }
  | "constraint" => { r with constraint := some s }
  | _ => r

def setCount (r : Record) (name : String) (n : Nat) : Record :=
  match name with
  | "constraint_count" => { r with constraintCount := some n }
  | "variable_count" => { r with variableCount := some n }
  | "sweeps" => { r with sweeps := some n }
  | "projections" => { r with projections := some n }
  | "suspended" => { r with suspended := some n }
  | "relax_calls" => { r with relaxCalls := some n }
  | "duration_ms" => { r with duration := some n }
  | _ => r

def setScalar (r : Record) (name : String) (x : Float) : Record :=
  match name with
  | "max_error" => { r with maxError := some x }
  | "penalty" => { r with penalty := some x }
  | _ => r

def set (r : Record) (x : String × Field Float) : Record :=
  match x.2 with
  | .text s => r.setText x.1 s
  | .count n => r.setCount x.1 n
  | .scalar v => r.setScalar x.1 v

def ofEvent (e : Event Float) : Record := e.fields.foldl set {}

/-- Drops the double quotes at both ends of a text. -/
def unquoted (s : String) : String :=
  String.ofList (((s.toList.dropWhile (· = '"')).reverse.dropWhile (· = '"')).reverse)

/-- Takes over a text that comes in its quoted form: the outer quotes go, the escapes within stay. -/
def setQuoted (r : Record) (name : String) (s : String) : Record := r.setText name (unquoted (Text.quoted s))

end Record

end Console

end SoftLinear
