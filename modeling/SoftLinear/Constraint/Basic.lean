import SoftLinear.Scalar

/-!
# Constraints

A constraint relates a weighted sum of variables to a right side.  Its penalty says how much it matters: at penalty
one it is *hard*, below one it is *soft* and a solver may leave it violated or suspend it.

A `Variable` names a slot of the system that created it, a `ConstraintId` a place in a system's list of constraints.
Handles are plain data: they hold no value, and they stay what they are when the system changes.

* `Constraint.build` merges terms that name the same variable, so a constraint names each variable once;
* `RightSide` is a number, or follows an outside source whose latest reading it holds;
* `Constraint.dominance` and `Constraint.dominant?` compare the terms of one constraint by weight.
-/

namespace SoftLinear

/-! ## Handles -/

/-- A variable: the system that owns it and its position among that system's variables. -/
structure Variable where
  owner : Nat
  index : Nat
  deriving DecidableEq, Repr, Inhabited

/-- A constraint of some system, named by its position. -/
structure ConstraintId where
  index : Nat
  deriving DecidableEq, Repr, Inhabited

/-- The label of an unnamed variable: `x` and its position. -/
def Variable.label (v : Variable) : String := "x" ++ toString v.index

/-- The label of a constraint: `c` and its position. -/
def ConstraintId.label (id : ConstraintId) : String := "c" ++ toString id.index

namespace ConstraintId

/-- Puts an identifier into an ascending list, once. -/
def insert (id : ConstraintId) : List ConstraintId → List ConstraintId
  | [] => [id]
  | a :: rest => if id.index < a.index then id :: a :: rest else if id = a then a :: rest else a :: insert id rest

/-- Takes every occurrence of an identifier out of a list. -/
def erase (id : ConstraintId) (ids : List ConstraintId) : List ConstraintId := ids.filter (· ≠ id)

end ConstraintId

/-! ## Constraints -/

def hardPenalty {α : Type} [Scalar α] : α := 1

/-- A weight counts as zero up to this magnitude. -/
def nearZero {α : Type} [Scalar α] : α := 1e-12

/-- One weighted variable of a left side. -/
structure Term (α : Type) where
  coefficient : α
  var : Variable
  deriving Repr

/-- How the left side has to compare with the right side. -/
inductive Relation where
  | eq
  | le
  | ge
  deriving DecidableEq, Repr, Inhabited

/-- The right side of a constraint: a number, or the latest reading of an outside source. -/
inductive RightSide (α : Type) where
  | fixed (value : α)
  | tracked (source : Nat) (reading : α)
  deriving Repr

namespace RightSide

variable {α : Type}

def value : RightSide α → α
  | fixed v => v
  | tracked _ v => v

/-- Whether the value follows an outside source. -/
def isTracked : RightSide α → Bool
  | fixed _ => false
  | tracked .. => true

/-- Takes over a new reading of a source. -/
def observe (source : Nat) (reading : α) : RightSide α → RightSide α
  | fixed v => fixed v
  | tracked s v => if s = source then tracked s reading else tracked s v

end RightSide

/-- A linear constraint. -/
structure Constraint (α : Type) where
  terms : List (Term α)
  relation : Relation
  rightSide : RightSide α
  penalty : α
  enabled : Bool
  /-- The position of the term chosen as pivot. -/
  pivot : Option Nat
  name : Option String
  deriving Repr

variable {α : Type} [Scalar α]

/-- Adds a term to a list of terms: to the term of the same variable, or else at the end. -/
def Term.absorb (t : Term α) : List (Term α) → List (Term α)
  | [] => [t]
  | s :: rest => if s.var = t.var then { s with coefficient := s.coefficient + t.coefficient } :: rest
      else s :: t.absorb rest

/-- The list of terms in which each variable is named once, in order of first appearance. -/
def Term.merge (ts : List (Term α)) : List (Term α) := ts.foldl (fun acc t => t.absorb acc) []

/-- Adds up from left to right. -/
def total (xs : List α) : α := xs.foldl (· + ·) 0

/-- Whether a penalty lies above zero and is at most one. -/
def isPenalty (penalty : α) : Bool := Scalar.isFinite penalty && decide (0 < penalty) && decide (penalty ≤ hardPenalty)

namespace Constraint

/-- A hard, enabled constraint without a name. -/
def build (terms : List (Term α)) (relation : Relation) (rightSide : RightSide α) : Constraint α where
  terms := Term.merge terms
  relation := relation
  rightSide := rightSide
  penalty := hardPenalty
  enabled := true
  pivot := none
  name := none

/-- Whether the constraint must not be given up. -/
def isHard (c : Constraint α) : Bool := decide (hardPenalty ≤ c.penalty)

def rhs (c : Constraint α) : α := c.rightSide.value

omit [Scalar α] in
/-- Chooses the term at a position as pivot; a position beyond the terms chooses none. -/
def setPivot (c : Constraint α) (pivot : Option Nat) : Constraint α :=
  { c with pivot := pivot.filter (· < c.terms.length) }

omit [Scalar α] in
def pivotTerm? (c : Constraint α) : Option (Term α) := c.pivot.bind (c.terms[·]?)

omit [Scalar α] in
/-- The position of the term that names a variable. -/
def position? (c : Constraint α) (v : Variable) : Option Nat := c.terms.findIdx? (·.var = v)

/-- The weight of a variable, zero when the constraint does not name it. -/
def coefficientOf (c : Constraint α) (v : Variable) : α :=
  match c.terms.find? (·.var = v) with
  | some t => t.coefficient
  | none => 0

def normSquared (c : Constraint α) : α := total (c.terms.map fun t => t.coefficient * t.coefficient)

def absSum (c : Constraint α) : α := total (c.terms.map fun t => Scalar.abs t.coefficient)

/-- The share that the term at a position has in the sum of magnitudes. -/
def dominance (c : Constraint α) (position : Nat) : α :=
  match c.terms[position]? with
  | some t => if nearZero < c.absSum then Scalar.abs t.coefficient / c.absSum else 0
  | none => 0

/-- The share that a variable has in the sum of magnitudes. -/
def influence (c : Constraint α) (v : Variable) : α :=
  match c.position? v with
  | some i => c.dominance i
  | none => 0

/-- Whether every weight is almost zero. -/
def isDegenerate (c : Constraint α) : Bool := decide (c.normSquared < nearZero)

end Constraint

/-- The earliest candidate of greatest weight: a later one has to be strictly greater. -/
def heaviest {β ω : Type} [LT ω] [DecidableLT ω] (candidates : List (β × ω)) : Option (β × ω) :=
  candidates.foldl (fun best x => match best with
    | some b => if b.2 < x.2 then some x else some b
    | none => some x) none

namespace Constraint

/-- The terms with their positions and magnitudes. -/
def magnitudes (c : Constraint α) : List (Nat × α) :=
  c.terms.zipIdx.map fun (t, i) => (i, Scalar.abs t.coefficient)

/-- The position of the term of greatest magnitude, the earliest among equals. -/
def dominant? (c : Constraint α) : Option Nat := (heaviest c.magnitudes).map (·.1)

/-- The position of the term of greatest magnitude, unless that magnitude is almost zero. -/
def dominantPivot? (c : Constraint α) : Option Nat :=
  c.dominant?.filter fun i => match c.terms[i]? with
    | some t => decide (nearZero < Scalar.abs t.coefficient)
    | none => false

end Constraint

end SoftLinear
