import SoftLinear.Pivot.Entry
import SoftLinear.Random

/-!
# Random selection

Two ways of choosing pivots that draw from a `Generator`.

* `Uniform`: every constraint takes a term drawn at random.  A draw of a term that weighs almost nothing is repeated a
  bounded number of times; after that the dominant term is taken.
* `TwoPhase`: first every constraint takes its own dominant term as pivot.  Then every variable is given an entry of the
  constraint in which it weighs most, if that constraint's pivot is another variable.  The entries are shuffled and put
  into an order in which entries with the same pivot keep their distance, as far as that is possible.
-/

namespace SoftLinear

namespace Uniform

variable {α γ : Type} [Scalar α] [Generator γ]

/-- Draws the position of a term that weighs something, in a bounded number of attempts. -/
def draw (c : Constraint α) : Nat → γ → Option Nat × γ
  | 0, g => (c.dominantPivot?, g)
  | n + 1, g =>
    let (i, g) := Generator.below g c.terms.length
    match c.terms[i]? with
    | some t => if nearZero < Scalar.abs t.coefficient then (some i, g) else draw c n g
    | none => draw c n g

/-- Draws the pivot of a constraint; a constraint without terms has none and takes no draw. -/
def pivotAt? (retries : Nat) (c : Constraint α) (g : γ) : Option Nat × γ :=
  if c.terms.isEmpty then (none, g) else draw c retries g

/-- Draws the pivots of the constraints considered. -/
def drawAll (retries : Nat) : List (ConstraintId × Constraint α) → γ → List PivotEntry × γ
  | [], g => ([], g)
  | (id, c) :: rest, g =>
    let (i, g) := pivotAt? retries c g
    let (entries, g) := drawAll retries rest g
    match i.bind (c.entryAt? id) with
    | some e => (e :: entries, g)
    | none => (entries, g)

/-- Selects the pivots of the constraints considered, with duplicates for the variables of a list. -/
def select (g : γ) (retries : Nat) (s : System α) (ids : List ConstraintId) (vs : List Variable)
    (limit : Option Nat) : Selection × γ :=
  let list := considered s ids limit
  let (entries, g) := drawAll retries list g
  let filled := PivotEntry.fillOrphans s entries vs
  (⟨list.length, filled, filled.length - entries.length⟩, g)

end Uniform

namespace TwoPhase

/-- The entries whose pivot is not among the latest ones, with their positions and the number of entries that are left
with the same pivot. -/
def eligible (recent : List PivotEntry) (pool : List PivotEntry) : List (Nat × Nat) :=
  (pool.zipIdx.filter fun (e, _) => recent.all (·.pivot ≠ e.pivot)).map
    fun (e, i) => (i, pool.countP (·.pivot = e.pivot))

/-- The position of the entry to take next: the eligible one with the most entries left, or else the first. -/
def pick (recent : List PivotEntry) (pool : List PivotEntry) : Nat :=
  match heaviest (eligible recent pool) with
  | some (i, _) => i
  | none => 0

/-- Takes the entries of a pool one by one; the latest taken stand first in `done`. -/
def arrange (window : Nat) : Nat → List PivotEntry → List PivotEntry → List PivotEntry
  | 0, done, _ => done.reverse
  | n + 1, done, pool =>
    let i := pick (done.take window) pool
    match pool[i]? with
    | some e => arrange window n (e :: done) (pool.eraseIdx i)
    | none => done.reverse

/-- Orders a pool so that entries with the same pivot are at least `distance` apart where possible. -/
def spread (distance : Nat) (pool : List PivotEntry) : List PivotEntry := arrange (distance - 1) pool.length [] pool

variable {α γ : Type} [Scalar α] [Generator γ]

/-- Shuffles the entries, then spreads them. -/
def spacedShuffle (g : γ) (distance : Nat) (pool : List PivotEntry) : List PivotEntry × γ :=
  let (pool, g) := Generator.shuffle g pool
  (spread distance pool, g)

/-- The considered constraint in which a variable weighs most, the earliest among equals. -/
def globalSource? (list : List (ConstraintId × Constraint α)) (v : Variable) : Option ConstraintId :=
  let shares := list.map fun (id, c) => (id, c.influence v)
  (heaviest (shares.filter fun x => nearZero < x.2)).map (·.1)

/-- Makes sure that a variable has an entry of the constraint in which it weighs most; counts what was added. -/
def govern (list : List (ConstraintId × Constraint α)) (acc : List PivotEntry × Nat) (v : Variable) :
    List PivotEntry × Nat :=
  match globalSource? list v with
  | some source =>
    if acc.1.any fun e => e.constraint = source && e.pivot = v then acc
    else (PivotEntry.insertDuplicate source v acc.1, acc.2 + 1)
  | none => acc

/-- Selects the pivots of the constraints considered, with entries for the variables of a list. -/
def select (g : γ) (distance : Nat) (s : System α) (ids : List ConstraintId) (vs : List Variable)
    (limit : Option Nat) : Selection × γ :=
  let list := considered s ids limit
  let entries := list.filterMap fun (id, c) => c.dominantPivot?.bind (c.entryAt? id)
  let (entries, duplicates) := vs.foldl (govern list) (entries, 0)
  let (entries, g) := spacedShuffle g distance entries
  (⟨list.length, entries, duplicates⟩, g)

end TwoPhase

end SoftLinear
