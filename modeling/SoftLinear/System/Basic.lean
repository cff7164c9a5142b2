import SoftLinear.Constraint.Residual

/-!
# Systems

A `System` owns variables and constraints.  A variable keeps its slot for good; a constraint that is removed leaves its
place empty, so that an identifier never comes to name another constraint.

Four views of the same facts are kept side by side: the places of the constraints, the order in which they were added,
for each variable the constraints that name it, and the list of variables that some constraint names.
-/

namespace SoftLinear

/-- What a system knows about one of its variables. -/
structure Slot (α : Type) where
  value : α
  name : Option String
  /-- The constraints that name the variable, ascending. -/
  active : List ConstraintId
  deriving Repr

/-- Variables and the constraints between them. -/
structure System (α : Type) where
  id : Nat
  slots : Array (Slot α)
  /-- The variables that some constraint names, in the order in which they were attached. -/
  attached : List Variable
  constraints : Array (Option (Constraint α))
  order : List ConstraintId
  /-- The violation below which a constraint counts as satisfied. -/
  tolerance : α
  deriving Repr

variable {α : Type}

namespace System

def empty [Scalar α] (id : Nat) : System α where
  id := id
  slots := #[]
  attached := []
  constraints := #[]
  order := []
  tolerance := 1e-10

/-! ## Variables -/

/-- Whether a variable was created by this system. -/
def owns (s : System α) (v : Variable) : Bool := v.owner = s.id && v.index < s.slots.size

/-- The slot of a variable of this system. -/
def slot? (s : System α) (v : Variable) : Option (Slot α) := if s.owns v then s.slots[v.index]? else none

/-- Changes the slot of a variable of this system. -/
def updateSlot? (s : System α) (v : Variable) (f : Slot α → Slot α) : Option (System α) :=
  (s.slot? v).map fun slot => { s with slots := s.slots.setIfInBounds v.index (f slot) }

/-- Creates a variable that no constraint names and nobody has set. -/
def addVariable [Scalar α] (s : System α) (name : Option String) : System α × Variable :=
  ({ s with slots := s.slots.push ⟨Scalar.unset, name, []⟩ }, ⟨s.id, s.slots.size⟩)

def value? (s : System α) (v : Variable) : Option α := (s.slot? v).map (·.value)

def setValue? (s : System α) (v : Variable) (value : α) : Option (System α) :=
  s.updateSlot? v fun slot => { slot with value := value }

def rename? (s : System α) (v : Variable) (name : String) : Option (System α) :=
  s.updateSlot? v fun slot => { slot with name := some name }

/-- The name of a variable, or else its label. -/
def label? (s : System α) (v : Variable) : Option String := (s.slot? v).map fun slot => slot.name.getD v.label

/-- Whether some constraint names a variable. -/
def isAttached? (s : System α) (v : Variable) : Option Bool := (s.slot? v).map fun slot => !slot.active.isEmpty

/-- The constraints that name a variable, ascending; none for a variable of another system. -/
def activeOf (s : System α) (v : Variable) : List ConstraintId :=
  match s.slot? v with
  | some slot => slot.active
  | none => []

/-! ## Values -/

def values (s : System α) : Point α := s.slots.map (·.value)

/-- Takes over the values of a point; variables beyond its end keep theirs. -/
def storeValues (s : System α) (p : Point α) : System α :=
  { s with slots := s.slots.mapIdx fun i slot => match p[i]? with
      | some value => { slot with value := value }
      | none => slot }

/-- Changes every value. -/
def mapValues (s : System α) (f : α → α) : System α :=
  { s with slots := s.slots.map fun slot => { slot with value := f slot.value } }

def resetValues [Scalar α] (s : System α) : System α := s.mapValues fun _ => 0

/-- Sets the variables without a defined value to zero. -/
def fillUnset [Scalar α] (s : System α) : System α := s.mapValues fun v => if Scalar.isNaN v then 0 else v

/-! ## Constraints -/

/-- The constraint that an identifier names. -/
def constraint? (s : System α) (id : ConstraintId) : Option (Constraint α) := s.constraints[id.index]?.join

/-- Changes the constraint that an identifier names, if there is one. -/
def modify (s : System α) (id : ConstraintId) (f : Constraint α → Constraint α) : System α :=
  match s.constraint? id with
  | some c => { s with constraints := s.constraints.setIfInBounds id.index (some (f c)) }
  | none => s

/-- The constraints that a list of identifiers names. -/
def resolve (s : System α) (ids : List ConstraintId) : List (ConstraintId × Constraint α) :=
  ids.filterMap fun id => (s.constraint? id).map fun c => (id, c)

/-- The enabled constraints that a list of identifiers names. -/
def live (s : System α) (ids : List ConstraintId) : List (ConstraintId × Constraint α) :=
  (s.resolve ids).filter fun x => x.2.enabled

/-- The identifiers of a list that name an enabled constraint. -/
def liveIds (s : System α) (ids : List ConstraintId) : List ConstraintId := (s.live ids).map (·.1)

/-- The enabled constraints in the order in which they were added. -/
def enabledIds (s : System α) : List ConstraintId := s.liveIds s.order

/-- Enables or disables every constraint of a list. -/
def setEnabledAll (s : System α) (ids : List ConstraintId) (enabled : Bool) : System α :=
  ids.foldl (fun s id => s.modify id fun c => { c with enabled := enabled }) s

/-- Takes over a new reading of an outside source in every right side that follows it. -/
def observe (s : System α) (source : Nat) (reading : α) : System α :=
  { s with constraints := s.constraints.map fun c? => c?.map fun c =>
      { c with rightSide := c.rightSide.observe source reading } }

end System

end SoftLinear
