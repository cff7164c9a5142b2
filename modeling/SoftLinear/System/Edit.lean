import SoftLinear.Constraint.Text
import SoftLinear.System.Basic

/-!
# Edits

Adding and removing constraints, and the edits of a single constraint.  An edit either succeeds or names the reason why
it is refused; a refused edit returns no system, so nothing of it can remain.
-/

namespace SoftLinear

variable {α : Type}

namespace System

/-- Notes in a variable's slot that a constraint names it; the first such note attaches the variable. -/
def attach (s : System α) (id : ConstraintId) (v : Variable) : System α :=
  match s.slots[v.index]? with
  | some slot =>
    { s with
      slots := s.slots.setIfInBounds v.index { slot with active := id.insert slot.active }
      attached := if slot.active.isEmpty then s.attached ++ [v] else s.attached }
  | none => s

/-- Takes the note back; when it was the last one the variable is detached. -/
def detach (s : System α) (id : ConstraintId) (v : Variable) : System α :=
  match s.slots[v.index]? with
  | some slot =>
    let active := id.erase slot.active
    { s with
      slots := s.slots.setIfInBounds v.index { slot with active := active }
      attached := if active.isEmpty then s.attached.filter (· ≠ v) else s.attached }
  | none => s

/-- The first variable of a constraint that this system did not create. -/
def foreign? (s : System α) (c : Constraint α) : Option Variable := (c.terms.map (·.var)).find? fun v => !s.owns v

/-- Adds a constraint under the next identifier. -/
def insert [Scalar α] (s : System α) (c : Constraint α) : Except (Error α) (System α × ConstraintId) :=
  match s.foreign? c with
  | some v => .error (.foreignVariable v)
  | none =>
    if isPenalty c.penalty then
      let id : ConstraintId := ⟨s.constraints.size⟩
      let s := c.terms.foldl (fun s t => s.attach id t.var) s
      .ok ({ s with constraints := s.constraints.push (some c), order := s.order ++ [id] }, id)
    else .error (.invalidPenalty c.penalty)

/-- The constraint that an identifier names, or the reason why there is none. -/
def require (s : System α) (id : ConstraintId) : Except (Error α) (Constraint α) :=
  match s.constraint? id with
  | some c => .ok c
  | none => .error (.unknownConstraint id)

/-- Removes a constraint and returns it. -/
def erase (s : System α) (id : ConstraintId) : Except (Error α) (System α × Constraint α) := do
  let c ← s.require id
  let s := { s with constraints := s.constraints.setIfInBounds id.index none, order := id.erase s.order }
  return (c.terms.foldl (fun s t => s.detach id t.var) s, c)

def setEnabled (s : System α) (id : ConstraintId) (enabled : Bool) : Except (Error α) (System α) := do
  let _ ← s.require id
  return s.modify id fun c => { c with enabled := enabled }

def setPenalty [Scalar α] (s : System α) (id : ConstraintId) (penalty : α) : Except (Error α) (System α) := do
  let _ ← s.require id
  if isPenalty penalty then return s.modify id fun c => { c with penalty := penalty }
  else throw (.invalidPenalty penalty)

def setRightSide (s : System α) (id : ConstraintId) (rightSide : RightSide α) : Except (Error α) (System α) := do
  let _ ← s.require id
  return s.modify id fun c => { c with rightSide := rightSide }

/-- Whether a tolerance is a positive finite number. -/
def isTolerance [Scalar α] (tolerance : α) : Bool := Scalar.isFinite tolerance && decide (0 < tolerance)

/-- Sets the tolerance; one that is not a positive finite number is ignored. -/
def setTolerance [Scalar α] (s : System α) (tolerance : α) : System α :=
  if isTolerance tolerance then { s with tolerance := tolerance } else s

end System

end SoftLinear
