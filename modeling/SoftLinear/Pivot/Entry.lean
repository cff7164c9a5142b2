import SoftLinear.System.Basic

/-!
# Pivot entries

A pivot is the one variable that is moved on behalf of a constraint.  A selection is a list of entries, each a
constraint with a pivot, in sweep order.  A constraint has one *primary* entry; a variable that would be left without an
entry gets a *duplicate* of the constraint in which it weighs most, directly behind that constraint's entries.
-/

namespace SoftLinear

/-- A constraint and the variable that is moved for it. -/
structure PivotEntry where
  constraint : ConstraintId
  pivot : Variable
  /-- Whether the entry only serves to give its pivot a constraint. -/
  duplicate : Bool
  deriving DecidableEq, Repr, Inhabited

namespace PivotEntry

def primary (constraint : ConstraintId) (pivot : Variable) : PivotEntry := ⟨constraint, pivot, false⟩

/-- Puts a duplicate behind the last entry of its constraint, or at the end if there is none. -/
def insertDuplicate (source : ConstraintId) (pivot : Variable) : List PivotEntry → List PivotEntry
  | [] => [⟨source, pivot, true⟩]
  | e :: rest =>
    if e.constraint = source ∧ rest.all (·.constraint ≠ source) then e :: ⟨source, pivot, true⟩ :: rest
    else e :: insertDuplicate source pivot rest

def duplicates (entries : List PivotEntry) : Nat := entries.countP (·.duplicate)

variable {α : Type} [Scalar α]

/-- The constraint with a primary entry in which a variable weighs most, the earliest among equals. -/
def mostInfluential? (s : System α) (entries : List PivotEntry) (v : Variable) : Option ConstraintId :=
  let shares := (entries.filter (!·.duplicate)).filterMap fun e =>
    (s.constraint? e.constraint).map fun c => (e.constraint, c.influence v)
  (heaviest (shares.filter fun x => nearZero < x.2)).map (·.1)

/-- Gives a variable without an entry a duplicate of the constraint in which it weighs most. -/
def adopt (s : System α) (entries : List PivotEntry) (v : Variable) : List PivotEntry :=
  if entries.any (·.pivot = v) then entries
  else match mostInfluential? s entries v with
    | some source => insertDuplicate source v entries
    | none => entries

/-- Adopts the variables of a list, one after the other. -/
def fillOrphans (s : System α) (entries : List PivotEntry) (vs : List Variable) : List PivotEntry :=
  vs.foldl (adopt s) entries

/-- Drops the entries of a removed constraint and adopts the variables that it leaves without an entry. -/
def withdraw (s : System α) (entries : List PivotEntry) (removed : ConstraintId) : List PivotEntry :=
  let released := (entries.filter (·.constraint = removed)).map (·.pivot)
  fillOrphans s (entries.filter (·.constraint ≠ removed)) released

omit [Scalar α] in
/-- Notes the pivot of every primary entry in its constraint. -/
def apply (entries : List PivotEntry) (s : System α) : System α :=
  (entries.filter (!·.duplicate)).foldl
    (fun s e => s.modify e.constraint fun c => c.setPivot (c.position? e.pivot)) s

end PivotEntry

/-- The pivots chosen for a list of constraints, in sweep order, with the number of constraints considered and of duplicates
that had to be made. -/
structure Selection where
  considered : Nat
  entries : List PivotEntry
  duplicates : Nat
  deriving DecidableEq, Repr, Inhabited

/-- The enabled constraints of a list, at most as many as a limit allows. -/
def considered {α : Type} (s : System α) (ids : List ConstraintId) (limit : Option Nat) :
    List (ConstraintId × Constraint α) :=
  match limit with
  | some n => (s.live ids).take n
  | none => s.live ids

/-- The term at a position as the primary entry of its constraint. -/
def Constraint.entryAt? {α : Type} (c : Constraint α) (id : ConstraintId) (position : Nat) : Option PivotEntry :=
  c.terms[position]?.map fun t => .primary id t.var

end SoftLinear
