import SoftLinear.Pivot.Entry

/-!
# Deterministic selection

A greedy selection that always gives the same answer.  The constraint with the fewest variables still free goes first,
the earliest among equals; it takes its free variable of greatest weight, or the term of greatest weight when none is
free.  An equality uses its pivot up, an inequality leaves it to others.

Along the way the constraint in which each variable has the greatest share is remembered; variables that end up without
an entry get a duplicate of it.
-/

namespace SoftLinear

namespace Deterministic

variable {α : Type} [Scalar α]

/-- The number of terms that weigh something and whose variable is free. -/
def freeCount (assigned : List Variable) (c : Constraint α) : Nat :=
  c.terms.countP fun t => nearZero < Scalar.abs t.coefficient && !assigned.contains t.var

/-- The positions and magnitudes of the terms whose weight is not almost zero and whose variable is free. -/
def free (assigned : List Variable) (c : Constraint α) : List (Nat × α) :=
  -- an undefined weight passes here, though `freeCount` does not count it
  (c.terms.zipIdx.filter fun (t, _) => !decide (Scalar.abs t.coefficient ≤ nearZero) && !assigned.contains t.var).map
    fun (t, i) => (i, Scalar.abs t.coefficient)

/-- The position of the term that becomes the pivot. -/
def pivotAt? (assigned : List Variable) (c : Constraint α) : Option Nat :=
  match heaviest (free assigned c) with
  | some (i, _) => some i
  | none => c.dominantPivot?

/-- The earliest element of least count, and the others in their order. -/
def takeFewest {β : Type} (count : β → Nat) : List β → Option (β × List β)
  | [] => none
  | x :: rest =>
    match takeFewest count rest with
    | some (y, others) => if count y < count x then some (y, x :: others) else some (x, rest)
    | none => some (x, [])

/-- For each variable the greatest share seen, and where it was seen. -/
abbrev Shares (α : Type) := List (Variable × α × ConstraintId)

/-- Remembers a share of a variable if it is the first or greater than the one remembered. -/
def Shares.note (v : Variable) (share : α) (id : ConstraintId) : Shares α → Shares α
  | [] => [(v, share, id)]
  | (w, best, source) :: rest =>
    if w = v then (if best < share then (v, share, id) else (w, best, source)) :: rest
    else (w, best, source) :: note v share id rest

/-- Remembers the shares of all terms of a constraint, those almost zero left out. -/
def Shares.noteAll (shares : Shares α) (id : ConstraintId) (c : Constraint α) : Shares α :=
  c.terms.zipIdx.foldl (fun shares (t, i) =>
    let share := c.dominance i
    if share ≤ nearZero then shares else shares.note t.var share id) shares

omit [Scalar α] in
/-- Where the greatest share of a variable was seen. -/
def Shares.source? (shares : Shares α) (v : Variable) : Option ConstraintId :=
  (shares.find? (·.1 = v)).map (·.2.2)

/-- A constraint with its place in the list of those considered. -/
structure Candidate (α : Type) where
  place : Nat
  id : ConstraintId
  constraint : Constraint α

/-- What the selection knows after some constraints: the variables used up, the pivot of each place that has one, and the
greatest shares. -/
structure State (α : Type) where
  assigned : List Variable
  pivots : List (Nat × Variable)
  shares : Shares α

/-- Chooses the pivot of one constraint. -/
def step (st : State α) (x : Candidate α) : State α :=
  let c := x.constraint
  let shares := st.shares.noteAll x.id c
  match (pivotAt? st.assigned c).bind (c.terms[·]?) with
  | some t =>
    { assigned := if c.relation = .eq then t.var :: st.assigned else st.assigned
      pivots := (x.place, t.var) :: st.pivots
      shares := shares }
  | none => { st with shares := shares }

/-- Chooses the pivots of the remaining constraints, the one with the fewest free variables first. -/
def run : Nat → State α → List (Candidate α) → State α
  | 0, st, _ => st
  | n + 1, st, pending =>
    match takeFewest (fun x => freeCount st.assigned x.constraint) pending with
    | some (x, others) => run n (step st x) others
    | none => st

/-- Selects the pivots of the constraints considered, with duplicates for the variables of a list. -/
def select (s : System α) (ids : List ConstraintId) (vs : List Variable) (limit : Option Nat) : Selection :=
  let list := considered s ids limit
  let st := run list.length ⟨[], [], []⟩ (list.zipIdx.map fun ((id, c), i) => ⟨i, id, c⟩)
  let entries := list.zipIdx.filterMap fun ((id, _), i) =>
    (st.pivots.find? (·.1 = i)).map fun (_, v) => PivotEntry.primary id v
  let orphans := vs.filter fun v => entries.all (·.pivot ≠ v)
  let adoptions := orphans.filterMap fun v => (st.shares.source? v).map fun source => (source, v)
  { considered := list.length
    entries := adoptions.foldl (fun es (source, v) => PivotEntry.insertDuplicate source v es) entries
    duplicates := adoptions.length }

end Deterministic

end SoftLinear
