import SoftLinear.Proofs.CheckedSweeps
import SoftLinear.Proofs.Selection

/-!
# Checked selections

The selectors as programs that stop at an access out of range (compare the checked sweeps).  What is checked:

* each term that is read, and each draw: of an empty list none can be drawn (`Uniform.drawChecked`);
* each insertion, which has to be at a position of the list or at its end (`PivotEntry.insertDuplicateChecked`);
* in a spaced shuffle the slice of the latest entries, the position that is taken from the pool, and the counts of the
  entries left, none of which is lowered below zero (`TwoPhase.arrangeChecked`);
* in the deterministic selection the places of two tables, which constraints are done and what their pivots are
  (`Deterministic.Ledger`).

`Generator.Ranged` is what the draws need of a generator, and `Selector.selectChecked_eq` the result: with such a generator
every selector runs through on every system, with the result of the unchecked definition.
-/

namespace SoftLinear

/-! ## Generators -/

/-- A generator that draws an index below a bound. -/
class Generator.Ranged (γ : Type) [Generator γ] : Prop where
  below_lt : ∀ (g : γ) {n : Nat}, 0 < n → (below g n).1 < n

/-- The upper half of a word times a bound is below the bound, also where the lower half carries over. -/
theorem KeyStream.below_lt (s : KeyStream) {bound : Nat} (hbound : 0 < bound) : (s.below bound).1 < bound := by
  have hword : s.next.1 < wordValues := (word s.key s.position).toNat_lt
  have hproduct : s.next.1 * bound + bound ≤ wordValues * bound := by
    rw [← Nat.succ_mul]
    exact Nat.mul_le_mul_right bound hword
  unfold below
  simp only
  generalize s.next.1 * bound = product at hproduct
  unfold wordValues at hproduct ⊢
  split
  · split <;> omega
  · omega

instance : Generator.Ranged KeyStream where
  below_lt := KeyStream.below_lt

/-! ## Lists -/

/-- The part of a list from one position up to another. -/
def sliceChecked {β : Type} (xs : List β) (start stop : Nat) : Option (List β) :=
  if start ≤ stop ∧ stop ≤ xs.length then some ((xs.drop start).take (stop - start)) else none

theorem length_of_sliceChecked {β : Type} {xs ys : List β} {start stop : Nat}
    (h : sliceChecked xs start stop = some ys) : ys.length = stop - start := by
  unfold sliceChecked at h
  split at h
  · obtain rfl := Option.some.inj h
    rw [List.length_take, List.length_drop]
    omega
  · cases h

/-- Writes to a place of a table. -/
def setChecked {β : Type} (xs : Array β) (i : Nat) (x : β) : Option (Array β) :=
  if i < xs.size then some (xs.setIfInBounds i x) else none

theorem setChecked_eq {β : Type} {xs : Array β} {i : Nat} (h : i < xs.size) (x : β) :
    setChecked xs i x = some (xs.setIfInBounds i x) := if_pos h

variable {α γ : Type} [Scalar α]

/-! ## Terms -/

namespace Constraint

def dominantPivotChecked (c : Constraint α) : Option (Option Nat) :=
  match c.dominant? with
  | some i => do
    let t ← c.terms[i]?
    return if nearZero < Scalar.abs t.coefficient then some i else none
  | none => some none

def entryChecked (c : Constraint α) (id : ConstraintId) : Option Nat → Option (Option PivotEntry)
  | some i => do
    let t ← c.terms[i]?
    return some (.primary id t.var)
  | none => some none

variable {c : Constraint α} {i : Nat}

theorem lt_of_dominant (h : c.dominant? = some i) : i < c.terms.length := by
  obtain ⟨x, hx, rfl⟩ := Option.map_eq_some_iff.mp h
  obtain ⟨⟨t, k⟩, hk, rfl⟩ := List.mem_map.mp (heaviest_mem hx)
  exact (List.getElem?_eq_some_iff.mp (List.mem_zipIdx_iff_getElem?.mp hk)).1

theorem lt_of_dominantPivot (h : c.dominantPivot? = some i) : i < c.terms.length :=
  lt_of_dominant (Option.filter_eq_some_iff.mp h).1

theorem dominantPivotChecked_eq (c : Constraint α) : c.dominantPivotChecked = some c.dominantPivot? := by
  unfold dominantPivotChecked dominantPivot?
  cases h : c.dominant? with
  | none => rfl
  | some i => simp [lt_of_dominant h, Option.filter_some]

omit [Scalar α] in
theorem entryChecked_eq (id : ConstraintId) {choice : Option Nat} (h : ∀ i, choice = some i → i < c.terms.length) :
    c.entryChecked id choice = some (choice.bind (c.entryAt? id)) := by
  cases choice with
  | none => rfl
  | some i => simp [entryChecked, entryAt?, h i rfl]

end Constraint

/-! ## Entries -/

namespace PivotEntry

/-- The position of the last entry of a constraint. -/
def lastAt? (source : ConstraintId) : List PivotEntry → Option Nat
  | [] => none
  | e :: rest =>
    match lastAt? source rest with
    | some i => some (i + 1)
    | none => if e.constraint = source then some 0 else none

/-- The position for a duplicate: behind the last entry of its constraint, or the end if there is none. -/
def placeOf (source : ConstraintId) (entries : List PivotEntry) : Nat :=
  match lastAt? source entries with
  | some i => i + 1
  | none => entries.length

def insertDuplicateChecked (source : ConstraintId) (pivot : Variable) (entries : List PivotEntry) :
    Option (List PivotEntry) :=
  let position := placeOf source entries
  if position ≤ entries.length then some (entries.insertIdx position ⟨source, pivot, true⟩) else none

def adoptChecked (s : System α) (entries : List PivotEntry) (v : Variable) : Option (List PivotEntry) :=
  if entries.any (·.pivot = v) then some entries
  else match mostInfluential? s entries v with
    | some source => insertDuplicateChecked source v entries
    | none => some entries

def fillOrphansChecked (s : System α) (entries : List PivotEntry) (vs : List Variable) : Option (List PivotEntry) :=
  vs.foldlM (adoptChecked s) entries

theorem lastAt_eq_none {source : ConstraintId} {entries : List PivotEntry} :
    lastAt? source entries = none ↔ entries.all (·.constraint ≠ source) = true := by
  induction entries with
  | nil => simp [lastAt?]
  | cons e rest ih =>
    rw [lastAt?, List.all_cons, Bool.and_eq_true, ← ih]
    cases lastAt? source rest with
    | none => by_cases he : e.constraint = source <;> simp [he]
    | some i => simp

theorem placeOf_spec (source : ConstraintId) (v : Variable) (entries : List PivotEntry) :
    placeOf source entries ≤ entries.length ∧
      entries.insertIdx (placeOf source entries) ⟨source, v, true⟩ = insertDuplicate source v entries := by
  induction entries with
  | nil => exact ⟨le_rfl, rfl⟩
  | cons e rest ih =>
    have hnone : lastAt? source rest = none ↔ rest.all (·.constraint ≠ source) = true := lastAt_eq_none
    unfold placeOf lastAt? insertDuplicate
    unfold placeOf at ih
    cases h : lastAt? source rest with
    | none =>
      rw [h] at ih hnone
      by_cases he : e.constraint = source
      · have hlast : e.constraint = source ∧ rest.all (·.constraint ≠ source) = true := ⟨he, hnone.mp rfl⟩
        rw [if_pos hlast]
        simp [he]
      · simpa [he] using ih
    | some i =>
      rw [h] at ih hnone
      have hsome : ¬ (e.constraint = source ∧ rest.all (·.constraint ≠ source) = true) :=
        fun hlast => Option.some_ne_none i (hnone.mpr hlast.2)
      rw [if_neg hsome]
      simpa using ih

theorem insertDuplicateChecked_eq (source : ConstraintId) (v : Variable) (entries : List PivotEntry) :
    insertDuplicateChecked source v entries = some (insertDuplicate source v entries) := by
  obtain ⟨hplace, hinsert⟩ := placeOf_spec source v entries
  rw [insertDuplicateChecked, if_pos hplace, hinsert]

theorem adoptChecked_eq (s : System α) (entries : List PivotEntry) (v : Variable) :
    adoptChecked s entries v = some (adopt s entries v) := by
  unfold adoptChecked adopt
  split
  · rfl
  · cases mostInfluential? s entries v with
    | some source => exact insertDuplicateChecked_eq source v entries
    | none => rfl

theorem fillOrphansChecked_eq (s : System α) (entries : List PivotEntry) (vs : List Variable) :
    fillOrphansChecked s entries vs = some (fillOrphans s entries vs) :=
  foldlM_eq_some fun entries v _ => adoptChecked_eq s entries v

end PivotEntry

/-! ## Uniform selection -/

namespace Uniform

variable [Generator γ]

/-- Draws the position of a term that weighs something, in a bounded number of attempts.  Of no terms none can be
drawn. -/
def drawChecked (c : Constraint α) : Nat → γ → Option (Option Nat × γ)
  | 0, g => do return (← c.dominantPivotChecked, g)
  | n + 1, g =>
    if 0 < c.terms.length then do
      let (i, g) := Generator.below g c.terms.length
      let t ← c.terms[i]?
      if nearZero < Scalar.abs t.coefficient then return (some i, g) else drawChecked c n g
    else none

def pivotAtChecked (retries : Nat) (c : Constraint α) (g : γ) : Option (Option Nat × γ) :=
  if c.terms.isEmpty then some (none, g) else drawChecked c retries g

def drawAllChecked (retries : Nat) : List (ConstraintId × Constraint α) → γ → Option (List PivotEntry × γ)
  | [], g => some ([], g)
  | (id, c) :: rest, g => do
    let (i, g) ← pivotAtChecked retries c g
    let e ← c.entryChecked id i
    let (entries, g) ← drawAllChecked retries rest g
    return (e.toList ++ entries, g)

def selectChecked (g : γ) (retries : Nat) (s : System α) (ids : List ConstraintId) (vs : List Variable)
    (limit : Option Nat) : Option (Selection × γ) := do
  let list := considered s ids limit
  let (entries, g) ← drawAllChecked retries list g
  let filled ← PivotEntry.fillOrphansChecked s entries vs
  return (⟨list.length, filled, filled.length - entries.length⟩, g)

theorem lt_of_draw {c : Constraint α} {retries : Nat} {g : γ} {i : Nat} (h : (draw c retries g).1 = some i) :
    i < c.terms.length := by
  induction retries generalizing g with
  | zero => exact Constraint.lt_of_dominantPivot h
  | succ n ih =>
    unfold draw at h
    dsimp only at h
    split at h
    · rename_i t ht
      split at h
      · obtain rfl := Option.some.inj h
        exact (List.getElem?_eq_some_iff.mp ht).1
      · exact ih h
    · exact ih h

variable [Generator.Ranged γ]

theorem drawChecked_eq {c : Constraint α} (h : 0 < c.terms.length) (retries : Nat) (g : γ) :
    drawChecked c retries g = some (draw c retries g) := by
  induction retries generalizing g with
  | zero =>
    rw [drawChecked, c.dominantPivotChecked_eq]
    rfl
  | succ n ih =>
    have hdrawn := Generator.Ranged.below_lt g h
    rw [drawChecked, if_pos h, draw]
    simp only [List.getElem?_eq_getElem hdrawn, Option.bind_eq_bind, Option.bind_some]
    split
    · rfl
    · exact ih _

theorem pivotAtChecked_eq (retries : Nat) (c : Constraint α) (g : γ) :
    pivotAtChecked retries c g = some (pivotAt? retries c g) := by
  unfold pivotAtChecked pivotAt?
  split
  · rfl
  · rename_i hterms
    exact drawChecked_eq (List.length_pos_iff.mpr fun h => hterms (List.isEmpty_iff.mpr h)) retries g

theorem drawAllChecked_eq (retries : Nat) (list : List (ConstraintId × Constraint α)) (g : γ) :
    drawAllChecked retries list g = some (drawAll retries list g) := by
  induction list generalizing g with
  | nil => rfl
  | cons x list ih =>
    obtain ⟨id, c⟩ := x
    have hinside : ∀ i, (pivotAt? retries c g).1 = some i → i < c.terms.length := by
      intro i hi
      unfold pivotAt? at hi
      split at hi
      · cases hi
      · exact lt_of_draw hi
    simp only [drawAllChecked, pivotAtChecked_eq, c.entryChecked_eq id hinside, ih, Option.bind_eq_bind,
      Option.bind_some, drawAll]
    cases (pivotAt? retries c g).1.bind (c.entryAt? id) <;> rfl

theorem selectChecked_eq (g : γ) (retries : Nat) (s : System α) (ids : List ConstraintId) (vs : List Variable)
    (limit : Option Nat) : selectChecked g retries s ids vs limit = some (select g retries s ids vs limit) := by
  simp only [selectChecked, drawAllChecked_eq, PivotEntry.fillOrphansChecked_eq, Option.bind_eq_bind, Option.bind_some]
  rfl

end Uniform

/-! ## Two-phase selection -/

namespace TwoPhase

abbrev Remaining := Variable → Nat

/-- Counts the entries of a pool, one after the other. -/
def Remaining.count (pool : List PivotEntry) : Remaining :=
  pool.foldl (fun left e v => if v = e.pivot then left v + 1 else left v) fun _ => 0

/-- Lowers the count of a pivot. -/
def Remaining.takeChecked (left : Remaining) (pivot : Variable) : Option Remaining :=
  if 0 < left pivot then some fun v => if v = pivot then left v - 1 else left v else none

/-- The position of the entry to take next, by the counts of the entries left. -/
def pickCounted (left : Remaining) (recent pool : List PivotEntry) : Nat :=
  let eligible := (pool.zipIdx.filter fun (e, _) => recent.all (·.pivot ≠ e.pivot)).map fun (e, i) => (i, left e.pivot)
  match heaviest eligible with
  | some (i, _) => i
  | none => 0

/-- Takes the entries of a pool one by one, until the pool is empty. -/
def arrangeChecked (window : Nat) : Nat → Remaining → List PivotEntry → List PivotEntry → Option (List PivotEntry)
  | 0, _, ordered, pool => if pool.isEmpty then some ordered else none
  | n + 1, left, ordered, pool => do
    let recent ← sliceChecked ordered (ordered.length - window) ordered.length
    let i := pickCounted left recent pool
    let e ← pool[i]?
    let left ← left.takeChecked e.pivot
    arrangeChecked window n left (ordered ++ [e]) (pool.eraseIdx i)

def spacedShuffleChecked [Generator γ] (g : γ) (distance : Nat) (pool : List PivotEntry) :
    Option (List PivotEntry × γ) := do
  let (pool, g) := Generator.shuffle g pool
  return (← arrangeChecked (distance - 1) pool.length (Remaining.count pool) [] pool, g)

def governChecked (list : List (ConstraintId × Constraint α)) (acc : List PivotEntry × Nat) (v : Variable) :
    Option (List PivotEntry × Nat) :=
  match globalSource? list v with
  | some source =>
    if acc.1.any fun e => e.constraint = source && e.pivot = v then some acc
    else do return (← PivotEntry.insertDuplicateChecked source v acc.1, acc.2 + 1)
  | none => some acc

/-- The dominant terms of the constraints of a list. -/
def dominantChecked : List (ConstraintId × Constraint α) → Option (List PivotEntry)
  | [] => some []
  | (id, c) :: rest => do
    let e ← c.entryChecked id (← c.dominantPivotChecked)
    return e.toList ++ (← dominantChecked rest)

def selectChecked [Generator γ] (g : γ) (distance : Nat) (s : System α) (ids : List ConstraintId) (vs : List Variable)
    (limit : Option Nat) : Option (Selection × γ) := do
  let list := considered s ids limit
  let (entries, duplicates) ← vs.foldlM (governChecked list) (← dominantChecked list, 0)
  let (entries, g) ← spacedShuffleChecked g distance entries
  return (⟨list.length, entries, duplicates⟩, g)

theorem Remaining.count_apply (pool : List PivotEntry) (v : Variable) :
    count pool v = pool.countP (·.pivot = v) := by
  have key : ∀ left : Remaining, pool.foldl (fun left e v => if v = e.pivot then left v + 1 else left v) left v =
      left v + pool.countP (·.pivot = v) := by
    induction pool with
    | nil => exact fun _ => rfl
    | cons e pool ih =>
      intro left
      rw [List.foldl_cons, ih, List.countP_cons]
      by_cases hv : v = e.pivot
      · simp [hv]
        omega
      · simp [hv, Ne.symm hv]
  rw [count, key, Nat.zero_add]

theorem takeChecked_eq {pool : List PivotEntry} {left : Remaining} (h : ∀ v, left v = pool.countP (·.pivot = v))
    {i : Nat} (hi : i < pool.length) : ∃ left', left.takeChecked pool[i].pivot = some left' ∧
      ∀ v, left' v = (pool.eraseIdx i).countP (·.pivot = v) := by
  have hsplit : ∀ v, pool.countP (·.pivot = v) =
      (pool.eraseIdx i).countP (·.pivot = v) + if pool[i].pivot = v then 1 else 0 := by
    intro v
    rw [← (List.getElem_cons_eraseIdx_perm hi).countP_eq, List.countP_cons]
    simp
  have hpos : 0 < left pool[i].pivot := by
    rw [h, hsplit, if_pos rfl]
    omega
  refine ⟨_, if_pos hpos, fun v => ?_⟩
  rw [h, hsplit]
  by_cases hv : v = pool[i].pivot
  · simp [hv]
  · simp [hv, Ne.symm hv]

theorem pickCounted_eq {pool : List PivotEntry} {left : Remaining} (h : ∀ v, left v = pool.countP (·.pivot = v))
    (recent : List PivotEntry) : pickCounted left recent.reverse pool = pick recent pool := by
  have heligible : (pool.zipIdx.filter fun (e, _) => recent.reverse.all (·.pivot ≠ e.pivot)).map
      (fun (e, i) => (i, left e.pivot)) = eligible recent pool := by
    simp only [eligible, h, List.all_reverse]
  rw [pick, ← heligible]
  rfl

theorem slice_recent (window : Nat) (done : List PivotEntry) :
    sliceChecked done.reverse (done.reverse.length - window) done.reverse.length = some (done.take window).reverse := by
  rw [sliceChecked, if_pos ⟨Nat.sub_le _ _, le_rfl⟩, List.take_of_length_le (by simp), List.reverse_take]
  simp

/-- **Spreading a pool runs through**: there is an entry at the position that is picked, and its pivot is counted. -/
theorem arrangeChecked_eq (window : Nat) {n : Nat} {pool : List PivotEntry} (hn : pool.length = n) {left : Remaining}
    (h : ∀ v, left v = pool.countP (·.pivot = v)) (done : List PivotEntry) :
    arrangeChecked window n left done.reverse pool = some (arrange window n done pool) := by
  induction n generalizing left done pool with
  | zero => simp [arrangeChecked, arrange, List.length_eq_zero_iff.mp hn]
  | succ n ih =>
    have hne : pool ≠ [] := List.ne_nil_of_length_eq_add_one hn
    have hlt := pick_lt (done.take window) hne
    obtain ⟨left', htake, hleft'⟩ := takeChecked_eq h hlt
    have hlength : (pool.eraseIdx (pick (done.take window) pool)).length = n := by
      rw [List.length_eraseIdx_of_lt hlt, hn, Nat.add_sub_cancel]
    rw [arrangeChecked, arrange]
    simp only [slice_recent, pickCounted_eq h, List.getElem?_eq_getElem hlt, htake, Option.bind_eq_bind, Option.bind_some]
    rw [← List.reverse_cons, ih hlength hleft']

section Selecting

variable [Generator γ]

omit [Scalar α] in
theorem spacedShuffleChecked_eq (g : γ) (distance : Nat) (pool : List PivotEntry) :
    spacedShuffleChecked g distance pool = some (spacedShuffle g distance pool) := by
  have hspread := arrangeChecked_eq (distance - 1) rfl (Remaining.count_apply (Generator.shuffle g pool).1) []
  rw [List.reverse_nil] at hspread
  simp only [spacedShuffleChecked, hspread, Option.bind_eq_bind, Option.bind_some]
  rfl

omit [Generator γ] in
theorem governChecked_eq (list : List (ConstraintId × Constraint α)) (acc : List PivotEntry × Nat) (v : Variable) :
    governChecked list acc v = some (govern list acc v) := by
  unfold governChecked govern
  cases globalSource? list v with
  | none => rfl
  | some source =>
    dsimp only
    split
    · rfl
    · rw [PivotEntry.insertDuplicateChecked_eq]
      rfl

omit [Generator γ] in
theorem dominantChecked_eq (list : List (ConstraintId × Constraint α)) :
    dominantChecked list = some (list.filterMap fun (id, c) => c.dominantPivot?.bind (c.entryAt? id)) := by
  induction list with
  | nil => rfl
  | cons x list ih =>
    obtain ⟨id, c⟩ := x
    rw [filterMap_cons_append]
    simp only [dominantChecked, c.dominantPivotChecked_eq,
      c.entryChecked_eq id fun i hi => Constraint.lt_of_dominantPivot hi, ih, Option.bind_eq_bind, Option.bind_some]
    rfl

theorem selectChecked_eq (g : γ) (distance : Nat) (s : System α) (ids : List ConstraintId) (vs : List Variable)
    (limit : Option Nat) : selectChecked g distance s ids vs limit = some (select g distance s ids vs limit) := by
  have hgovern : ∀ (list : List (ConstraintId × Constraint α)) acc,
      vs.foldlM (governChecked list) acc = some (vs.foldl (govern list) acc) :=
    fun list acc => foldlM_eq_some fun acc v _ => governChecked_eq list acc v
  simp only [selectChecked, dominantChecked_eq, hgovern, spacedShuffleChecked_eq, Option.bind_eq_bind, Option.bind_some]
  rfl

end Selecting

end TwoPhase

/-! ## Deterministic selection -/

namespace Deterministic

def pivotAtChecked (assigned : List Variable) (c : Constraint α) : Option (Option Nat) :=
  match heaviest (free assigned c) with
  | some (i, _) => some (some i)
  | none => c.dominantPivotChecked

/-- What the selection has written down.  Both tables have a place for each constraint considered. -/
structure Ledger (α : Type) where
  assigned : List Variable
  done : Array Bool
  pivots : Array (Option Variable)
  shares : Shares α

/-- The fewer of the best place so far and another one, by count. -/
def fewer (place count : Nat) : Option (Nat × Nat) → Option (Nat × Nat)
  | some (best, fewest) => if count < fewest then some (place, count) else some (best, fewest)
  | none => some (place, count)

/-- The place of the constraint to deal with next: among those not dealt with, the first one with the fewest variables
still free. -/
def nextChecked (list : List (ConstraintId × Constraint α)) (l : Ledger α) : Option (Option (Nat × Nat)) :=
  list.zipIdx.foldlM (fun best (x, i) => do
    if ← l.done[i]? then return best else return fewer i (freeCount l.assigned x.2) best) none

/-- Deals with the constraint at a place. -/
def dealChecked (list : List (ConstraintId × Constraint α)) (l : Ledger α) (i : Nat) : Option (Ledger α) := do
  let done ← setChecked l.done i true
  let (id, c) ← list[i]?
  let shares := l.shares.noteAll id c
  match ← pivotAtChecked l.assigned c with
  | some k =>
    let t ← c.terms[k]?
    return {
      assigned := if c.relation = .eq then t.var :: l.assigned else l.assigned
      done := done
      pivots := ← setChecked l.pivots i (some t.var)
      shares := shares }
  | none => return { l with done := done, shares := shares }

/-- Deals with as many constraints of a list. -/
def runChecked (list : List (ConstraintId × Constraint α)) : Nat → Ledger α → Option (Ledger α)
  | 0, l => some l
  | n + 1, l => do
    match ← nextChecked list l with
    | some (i, _) => runChecked list n (← dealChecked list l i)
    | none => return l

def selectChecked (s : System α) (ids : List ConstraintId) (vs : List Variable) (limit : Option Nat) :
    Option Selection := do
  let list := considered s ids limit
  let l ← runChecked list list.length
    ⟨[], Array.replicate list.length false, Array.replicate list.length none, []⟩
  let entries := (list.zip l.pivots.toList).filterMap fun ((id, _), pivot) => pivot.map (PivotEntry.primary id)
  let orphans := vs.filter fun v => entries.all (·.pivot ≠ v)
  let adoptions := orphans.filterMap fun v => (l.shares.source? v).map fun source => (source, v)
  return {
    considered := list.length
    entries := ← adoptions.foldlM (fun es (source, v) => PivotEntry.insertDuplicateChecked source v es) entries
    duplicates := adoptions.length }

/-! ### The place that comes next -/

section Fewest

omit [Scalar α]

variable {count : Candidate α → Nat} {pending others : List (Candidate α)} {x : Candidate α}

theorem foldl_fewer (best fewest : Nat) :
    pending.foldl (fun best x => fewer x.place (count x) best) (some (best, fewest)) =
      some (match takeFewest count pending with
        | some (x, _) => if count x < fewest then (x.place, count x) else (best, fewest)
        | none => (best, fewest)) := by
  induction pending generalizing best fewest with
  | nil => rfl
  | cons x rest ih =>
    rw [List.foldl_cons, takeFewest, fewer]
    cases hrest : takeFewest count rest with
    | none =>
      simp only [hrest] at ih
      split
      · rename_i hx
        rw [ih]
        simp [hx]
      · rename_i hx
        rw [ih]
        simp [hx]
    | some y =>
      simp only [hrest] at ih
      -- the later candidate wins only if it has strictly fewer
      by_cases hy : count y.1 < count x
      · split
        · rw [ih]
          simp only [hy, if_true]
          rw [if_pos (by omega)]
        · rw [ih]
          simp [hy]
      · split
        · rename_i hx
          rw [ih]
          simp [hx, hy]
        · rename_i hx
          rw [ih]
          simp only [hx, hy, if_false]
          rw [if_neg (by omega)]

theorem foldl_fewer_none (count : Candidate α → Nat) (pending : List (Candidate α)) :
    pending.foldl (fun best x => fewer x.place (count x) best) none =
      (takeFewest count pending).map fun y => (y.1.place, count y.1) := by
  cases pending with
  | nil => rfl
  | cons x rest =>
    rw [List.foldl_cons, takeFewest, fewer, foldl_fewer]
    cases takeFewest count rest with
    | none => rfl
    | some y =>
      dsimp only
      split <;> rfl

theorem takeFewest_others (h : takeFewest count pending = some (x, others)) (hn : (pending.map (·.place)).Nodup) :
    others = pending.filter (·.place ≠ x.place) := by
  induction pending generalizing others with
  | nil => cases h
  | cons a rest ih =>
    obtain ⟨ha, hrest⟩ := List.nodup_cons.mp hn
    -- places are distinct, so leaving out the place of the head leaves out the head
    have hleft : (a :: rest).filter (·.place ≠ a.place) = rest := by
      rw [List.filter_cons_of_neg (by simp), List.filter_eq_self]
      intro b hb
      simp only [ne_eq, decide_not, Bool.not_eq_true', decide_eq_false_iff_not]
      exact fun e => ha (List.mem_map.mpr ⟨b, hb, e⟩)
    unfold takeFewest at h
    split at h
    · rename_i y ys hy
      split at h
      · obtain ⟨rfl, rfl⟩ := Prod.mk.inj (Option.some.inj h)
        have hmem : y ∈ rest := (takeFewest_perm hy).mem_iff.mp List.mem_cons_self
        have hne : a.place ≠ y.place := fun e => ha (List.mem_map.mpr ⟨y, hmem, e.symm⟩)
        rw [List.filter_cons_of_pos (by simpa using hne), ← ih hy hrest]
      · obtain ⟨rfl, rfl⟩ := Prod.mk.inj (Option.some.inj h)
        exact hleft.symm
    · rename_i hnone
      obtain rfl := takeFewest_eq_none hnone
      obtain ⟨rfl, rfl⟩ := Prod.mk.inj (Option.some.inj h)
      exact hleft.symm

end Fewest

/-! ### The ledger -/

theorem pivotAtChecked_eq (assigned : List Variable) (c : Constraint α) :
    pivotAtChecked assigned c = some (pivotAt? assigned c) := by
  unfold pivotAtChecked pivotAt?
  cases heaviest (free assigned c) with
  | none => exact c.dominantPivotChecked_eq
  | some x => rfl

theorem lt_of_pivotAt {assigned : List Variable} {c : Constraint α} {i : Nat} (h : pivotAt? assigned c = some i) :
    i < c.terms.length := by
  unfold pivotAt? at h
  split at h
  · rename_i k _ hk
    obtain rfl := Option.some.inj h
    obtain ⟨⟨t, j⟩, hj, heq⟩ := List.mem_map.mp (heaviest_mem hk)
    obtain ⟨rfl, -⟩ := Prod.mk.inj heq
    exact (List.getElem?_eq_some_iff.mp (List.mem_zipIdx_iff_getElem?.mp (List.mem_filter.mp hj).1)).1
  · exact Constraint.lt_of_dominantPivot h

/-- A ledger says the same as a state of the selection and the candidates that are still to be dealt with. -/
structure Ledger.Records (list : List (ConstraintId × Constraint α)) (l : Ledger α) (st : State α)
    (pending : List (Candidate α)) : Prop where
  assigned : l.assigned = st.assigned
  shares : l.shares = st.shares
  done : l.done.size = list.length
  pending : pending = (candidates list).filter fun x => l.done[x.place]? = some false
  pivots : l.pivots.size = list.length
  chosen : ∀ i < list.length, l.pivots[i]? = some ((st.pivots.find? (·.1 = i)).map (·.2))

variable {list : List (ConstraintId × Constraint α)} {l : Ledger α} {st : State α} {pending : List (Candidate α)}

omit [Scalar α] in
theorem places_candidates (list : List (ConstraintId × Constraint α)) :
    (candidates list).map (·.place) = List.range list.length := by
  unfold candidates
  rw [List.map_map]
  rw [List.range_eq_range']
  exact List.zipIdx_map_snd 0 list

omit [Scalar α] in
theorem Ledger.Records.start (list : List (ConstraintId × Constraint α)) :
    Records list ⟨[], Array.replicate list.length false, Array.replicate list.length none, []⟩ ⟨[], [], []⟩
      (candidates list) where
  assigned := rfl
  shares := rfl
  done := Array.size_replicate
  pending := by
    rw [eq_comm, List.filter_eq_self]
    intro x hx
    have hplace : x.place < list.length := (List.getElem?_eq_some_iff.mp (mem_candidates.mp hx)).1
    simp [hplace]
  pivots := Array.size_replicate
  chosen i hi := by simp [hi]

theorem nextChecked_eq (h : l.Records list st pending) :
    nextChecked list l = some ((takeFewest (fun x => freeCount st.assigned x.constraint) pending).map fun y =>
      (y.1.place, freeCount st.assigned y.1.constraint)) := by
  let compare (best : Option (Nat × Nat)) (x : Candidate α) : Option (Nat × Nat) :=
    fewer x.place (freeCount st.assigned x.constraint) best
  let visit (best : Option (Nat × Nat)) (x : Candidate α) : Option (Nat × Nat) :=
    if l.done[x.place]? = some false then compare best x else best
  have hloop : nextChecked list l =
      some (list.zipIdx.foldl (fun best y => visit best ⟨y.2, y.1.1, y.1.2⟩) none) := by
    refine foldlM_eq_some fun best y hy => ?_
    obtain ⟨⟨id, c⟩, i⟩ := y
    have hi : i < l.done.size := h.done ▸ (List.getElem?_eq_some_iff.mp (List.mem_zipIdx_iff_getElem?.mp hy)).1
    simp only [visit, compare, Array.getElem?_eq_getElem hi, Option.bind_eq_bind, Option.bind_some, h.assigned]
    cases l.done[i] <;> rfl
  rw [hloop]
  refine congrArg some (.trans ?_ (foldl_fewer_none (fun x => freeCount st.assigned x.constraint) pending))
  rw [h.pending, List.foldl_filter]
  unfold candidates
  rw [List.foldl_map]
  simp only [decide_eq_true_eq]
  rfl

theorem dealChecked_eq (h : l.Records list st pending) {x : Candidate α} {others : List (Candidate α)}
    {count : Candidate α → Nat} (hx : takeFewest count pending = some (x, others)) :
    ∃ l', dealChecked list l x.place = some l' ∧ l'.Records list (step st x) others := by
  have hmem : x ∈ pending := (takeFewest_perm hx).mem_iff.mp List.mem_cons_self
  have hat : list[x.place]? = some (x.id, x.constraint) := by
    rw [h.pending] at hmem
    exact mem_candidates.mp (List.mem_filter.mp hmem).1
  have hplace : x.place < list.length := (List.getElem?_eq_some_iff.mp hat).1
  -- the places not dealt with yet, less the one that is dealt with now
  have hothers : others = (candidates list).filter fun y => (l.done.setIfInBounds x.place true)[y.place]? = some false := by
    have hnodup : (pending.map (·.place)).Nodup := by
      have hsub := List.filter_sublist (l := candidates list) (p := fun x => l.done[x.place]? = some false)
      rw [h.pending]
      refine List.Nodup.sublist (hsub.map _) ?_
      rw [places_candidates]
      exact List.nodup_range
    rw [takeFewest_others hx hnodup, h.pending, List.filter_filter]
    refine List.filter_congr fun y _ => ?_
    rw [Array.getElem?_setIfInBounds]
    by_cases hy : x.place = y.place
    · have hle : y.place < l.done.size := by rw [h.done, ← hy]; exact hplace
      simp [hy, hle]
    · simp [hy, Ne.symm hy]
  have hdone : setChecked l.done x.place true = some (l.done.setIfInBounds x.place true) :=
    setChecked_eq (by rw [h.done]; exact hplace) true
  unfold dealChecked step
  simp only [hdone, hat, pivotAtChecked_eq, h.assigned, h.shares, Option.bind_eq_bind, Option.bind_some]
  cases hpivot : pivotAt? st.assigned x.constraint with
  | none =>
    refine ⟨_, rfl, rfl, rfl, ?_, hothers, h.pivots, h.chosen⟩
    rw [Array.size_setIfInBounds, h.done]
  | some k =>
    -- the pivot is stored at a place of the list, so the store is in range
    have hk := lt_of_pivotAt hpivot
    have hset := setChecked_eq (h.pivots.symm ▸ hplace) (some x.constraint.terms[k].var)
    simp only [List.getElem?_eq_getElem hk, hset, Option.bind_some]
    refine ⟨_, rfl, rfl, rfl, ?_, hothers, ?_, ?_⟩
    · rw [Array.size_setIfInBounds, h.done]
    · rw [Array.size_setIfInBounds, h.pivots]
    · intro i hi
      rw [Array.getElem?_setIfInBounds, List.find?_cons]
      by_cases hxi : x.place = i
      · have hle : i < l.pivots.size := by rw [h.pivots]; exact hi
        simp [hxi, hle]
      · simpa [hxi] using h.chosen i hi

theorem runChecked_eq (h : l.Records list st pending) (n : Nat) :
    ∃ l' pending', runChecked list n l = some l' ∧ l'.Records list (run n st pending) pending' := by
  induction n generalizing l st pending with
  | zero => exact ⟨l, pending, rfl, h⟩
  | succ n ih =>
    unfold runChecked run
    rw [nextChecked_eq h, Option.bind_eq_bind, Option.bind_some]
    cases hx : takeFewest (fun x => freeCount st.assigned x.constraint) pending with
    | none => exact ⟨l, pending, rfl, h⟩
    | some y =>
      obtain ⟨x, others⟩ := y
      obtain ⟨l', hl', hrecords⟩ := dealChecked_eq h hx
      simp only [Option.map_some, hl']
      exact ih hrecords

omit [Scalar α] in
theorem Ledger.Records.entries (h : l.Records list st pending) :
    (list.zip l.pivots.toList).filterMap (fun ((id, _), pivot) => pivot.map (PivotEntry.primary id)) =
      list.zipIdx.filterMap fun ((id, _), i) =>
        (st.pivots.find? (·.1 = i)).map fun (_, v) => PivotEntry.primary id v := by
  have hzip : list.zip l.pivots.toList =
      list.zipIdx.map fun x => (x.1, (st.pivots.find? (·.1 = x.2)).map (·.2)) := by
    refine List.ext_getElem (by simp [h.pivots]) fun i hi _ => ?_
    have hlt : i < list.length := (List.lt_length_left_of_zip hi :)
    have hat := h.chosen i hlt
    rw [Array.getElem?_eq_getElem (h.pivots.symm ▸ hlt)] at hat
    simpa using Option.some.inj hat
  rw [hzip, List.filterMap_map]
  refine List.filterMap_congr fun x _ => ?_
  simp [Option.map_map]
  rfl

theorem selectChecked_eq (s : System α) (ids : List ConstraintId) (vs : List Variable) (limit : Option Nat) :
    selectChecked s ids vs limit = some (select s ids vs limit) := by
  have hinsert : ∀ (adoptions : List (ConstraintId × Variable)) es,
      adoptions.foldlM (fun es (source, v) => PivotEntry.insertDuplicateChecked source v es) es =
        some (adoptions.foldl (fun es (source, v) => PivotEntry.insertDuplicate source v es) es) :=
    fun adoptions es => foldlM_eq_some fun es x _ => PivotEntry.insertDuplicateChecked_eq x.1 x.2 es
  unfold selectChecked select
  generalize considered s ids limit = list
  obtain ⟨l, pending, hrun, hrecords⟩ := runChecked_eq (Ledger.Records.start list) list.length
  simp only [hrun, hrecords.entries, hrecords.shares, hinsert, Option.bind_eq_bind, Option.bind_some]
  rfl

end Deterministic

/-! ## Selectors -/

namespace Selector

variable [Generator γ]

def selectChecked (selector : Selector γ) (s : System α) (ids : List ConstraintId) (vs : List Variable)
    (limit : Option Nat) : Option (Selection × Selector γ) :=
  match selector with
  | deterministic => do return (← Deterministic.selectChecked s ids vs limit, deterministic)
  | twoPhase g distance => do
    let (selection, g) ← TwoPhase.selectChecked g distance s ids vs limit
    return (selection, twoPhase g distance)
  | uniform g retries => do
    let (selection, g) ← Uniform.selectChecked g retries s ids vs limit
    return (selection, uniform g retries)

/-- **Every selector runs through on every system**, if its generator draws what it is asked for. -/
theorem selectChecked_eq [Generator.Ranged γ] (selector : Selector γ) (s : System α) (ids : List ConstraintId)
    (vs : List Variable) (limit : Option Nat) :
    selector.selectChecked s ids vs limit = some (selector.select s ids vs limit) := by
  cases selector with
  | deterministic =>
    rw [selectChecked, Deterministic.selectChecked_eq]
    rfl
  | twoPhase g distance =>
    rw [selectChecked, TwoPhase.selectChecked_eq]
    rfl
  | uniform g retries =>
    rw [selectChecked, Uniform.selectChecked_eq]
    rfl

end Selector

end SoftLinear
