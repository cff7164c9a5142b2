import SoftLinear.Proofs.Frame

/-!
# Checked sweeps

The definitions of the library read a value that is not there as zero and pass over a write to a place that is not there.
A program that works on buffers stops instead.  Here the relaxations are written down once more as such programs: each
access to a value, by position or by variable, is checked, and the result is `none` as soon as one is out of range.

* `Constraint.Within` says that all variables of a constraint are below a size; no more is needed for the left side, and
  no less (`Constraint.isSome_lhsChecked`);
* a loop whose rounds cannot fail cannot fail (`foldlM_invariant`, `Progress.iterateChecked_eq`), and no round changes the
  size of the point;
* so each of the three relaxations runs through on a well-formed system, with the result of the unchecked definition
  (`Engine.relaxChecked_eq`), whatever it has prepared and whichever entries it keeps.
-/

namespace SoftLinear

/-- A loop does not fail if no round fails that begins in a state with some property, and the property stays. -/
theorem foldlM_invariant {β δ : Type} {f : δ → β → δ} {g : δ → β → Option δ} {P : δ → Prop} {l : List β} {b : δ}
    (h : ∀ b, ∀ x ∈ l, P b → g b x = some (f b x) ∧ P (f b x)) (hb : P b) :
    l.foldlM g b = some (l.foldl f b) ∧ P (l.foldl f b) := by
  induction l generalizing b with
  | nil => exact ⟨rfl, hb⟩
  | cons x l ih =>
    obtain ⟨hx, hnext⟩ := h b x List.mem_cons_self hb
    rw [List.foldlM_cons, hx]
    exact ih (fun b y hy => h b y (List.mem_cons_of_mem x hy)) hnext

theorem foldlM_eq_some {β δ : Type} {f : δ → β → δ} {g : δ → β → Option δ} {l : List β} {b : δ}
    (h : ∀ b, ∀ x ∈ l, g b x = some (f b x)) : l.foldlM g b = some (l.foldl f b) :=
  (foldlM_invariant (P := fun _ => True) (fun b x hx _ => ⟨h b x hx, trivial⟩) trivial).1

variable {α γ : Type} [Scalar α] {n : Nat}

/-! ## Points -/

namespace Point

def coordChecked (p : Point α) (v : Variable) : Option α := p[v.index]?

def moveChecked (p : Point α) (v : Variable) (amount : α) : Option (Point α) :=
  (p.coordChecked v).map fun x => p.setIfInBounds v.index (x + amount)

variable {p : Point α} {v : Variable}

theorem coordChecked_eq (h : v.index < p.size) : p.coordChecked v = some (p.coord v) := by
  simp [coordChecked, coord, h]

theorem moveChecked_eq (h : v.index < p.size) (amount : α) : p.moveChecked v amount = some (p.move v amount) := by
  rw [moveChecked, coordChecked_eq h]
  rfl

end Point

/-! ## Constraints -/

namespace Constraint

/-- All variables of a constraint are below a size. -/
def Within (n : Nat) (c : Constraint α) : Prop := ∀ t ∈ c.terms, t.var.index < n

def lhsChecked (c : Constraint α) (p : Point α) : Option α :=
  c.terms.foldlM (fun sum t => (p.coordChecked t.var).map fun x => sum + t.coefficient * x) 0

def errorChecked (c : Constraint α) (p : Point α) : Option α := (c.lhsChecked p).map c.errorAt

def deficitChecked (c : Constraint α) (p : Point α) : Option α := do
  let gap := c.rhs - (← c.lhsChecked p)
  return match c.relation with
    | .eq => gap
    | .ge => Scalar.larger gap 0
    | .le => Scalar.smaller gap 0

def shiftChecked (c : Constraint α) (p : Point α) (step : α) : Option (Point α) :=
  c.terms.foldlM (fun q t => q.moveChecked t.var (step * t.coefficient)) p

def projectChecked (c : Constraint α) (p : Point α) (factor : α) : Option (Projection α) := do
  let deficit ← c.deficitChecked p
  if c.isAtRest deficit then return ⟨p, 0, false⟩
  else if c.normSquared < nearZero then return ⟨p, Scalar.abs deficit, false⟩
  else return ⟨← c.shiftChecked p (factor * deficit / c.normSquared), Scalar.abs deficit, true⟩

variable {c : Constraint α} {p : Point α}

theorem lhsChecked_eq (h : c.Within p.size) : c.lhsChecked p = some (c.lhs p) := by
  unfold lhs total
  rw [List.foldl_map]
  refine foldlM_eq_some fun sum t ht => ?_
  rw [Point.coordChecked_eq (h t ht)]
  rfl

theorem isSome_lhsChecked : (c.lhsChecked p).isSome = true ↔ c.Within p.size := by
  refine ⟨fun h => ?_, fun h => by rw [lhsChecked_eq h]; rfl⟩
  unfold lhsChecked at h
  unfold Within
  generalize c.terms = ts, (0 : α) = sum at h
  induction ts generalizing sum with
  | nil => simp
  | cons t ts ih =>
    rw [List.foldlM_cons] at h
    cases hx : p.coordChecked t.var with
    | none =>
      rw [hx] at h
      cases h
    | some x =>
      rw [hx] at h
      exact List.forall_mem_cons.mpr ⟨(Array.getElem?_eq_some_iff.mp hx).1, ih _ h⟩

theorem errorChecked_eq (h : c.Within p.size) : c.errorChecked p = some (c.error p) := by
  rw [errorChecked, lhsChecked_eq h]
  rfl

theorem deficitChecked_eq (h : c.Within p.size) : c.deficitChecked p = some (c.deficit p) := by
  rw [deficitChecked, lhsChecked_eq h]
  rfl

theorem shiftChecked_eq (h : c.Within p.size) (step : α) : c.shiftChecked p step = some (c.shift p step) := by
  have hround : ∀ q : Point α, ∀ t ∈ c.terms, q.size = p.size →
      q.moveChecked t.var (step * t.coefficient) = some (q.move t.var (step * t.coefficient)) ∧
        (q.move t.var (step * t.coefficient)).size = p.size := by
    intro q t ht hq
    exact ⟨Point.moveChecked_eq (hq ▸ h t ht) _, (Point.size_move q _ _).trans hq⟩
  exact (foldlM_invariant hround rfl).1

theorem projectChecked_eq (h : c.Within p.size) (factor : α) : c.projectChecked p factor = some (c.project p factor) := by
  rw [projectChecked, deficitChecked_eq h, Option.bind_eq_bind, Option.bind_some, project]
  split
  · rfl
  · split
    · rfl
    · rw [shiftChecked_eq h]
      rfl

end Constraint

/-! ## Summaries -/

namespace Summary

def addChecked (p : Point α) (s : Summary α) (c : Constraint α) : Option (Summary α) := do
  let residual := Scalar.abs (← c.errorChecked p)
  return { max := Scalar.larger s.max residual
           hard := if c.isHard then Scalar.larger s.hard residual else s.hard
           softSquared := if c.isHard then s.softSquared else s.softSquared + residual * residual }

def measureChecked (cs : List (Constraint α)) (p : Point α) : Option (Summary α) := cs.foldlM (addChecked p) zero

theorem measureChecked_eq {cs : List (Constraint α)} {p : Point α} (h : ∀ c ∈ cs, c.Within p.size) :
    measureChecked cs p = some (measure cs p) := by
  refine foldlM_eq_some fun s c hc => ?_
  rw [addChecked, Constraint.errorChecked_eq (h c hc)]
  rfl

end Summary

/-! ## Runs -/

namespace Progress

def startChecked (cs : List (Constraint α)) (s : System α) (strength : α) (scope : Scope α) :
    Option (Progress α) := do
  return {
    point := s.values
    residuals := []
    strength := strength
    sweeps := 0
    summary := ← Summary.measureChecked cs s.values
    checkpoint := none
    scope := scope.tally Stats.recordRelaxCall }

def closeChecked (cs : List (Constraint α)) (budget : Nat) (p : Progress α) : Option (Progress α) := do
  let sweeps := p.sweeps + 1
  let summary ← Summary.measureChecked cs p.point
  return { p with
    sweeps := sweeps
    summary := summary
    checkpoint := p.checkpoint.or (if budget / 2 ≤ sweeps then some summary.hard else none) }

def iterateChecked (sweep : Progress α → Option (Progress α)) (settled : Progress α → Progress α → Bool) :
    Nat → Progress α → Option (Progress α)
  | 0, p => some p
  | n + 1, p =>
    if p.scope.tolerance ≤ p.summary.max then do
      let q ← sweep p
      if settled p q then return q else iterateChecked sweep settled n q
    else some p

theorem startChecked_eq {cs : List (Constraint α)} {s : System α} (h : ∀ c ∈ cs, c.Within s.slots.size) (strength : α)
    (scope : Scope α) : startChecked cs s strength scope = some (start cs s strength scope) := by
  rw [startChecked, Summary.measureChecked_eq (by simpa using h)]
  rfl

theorem closeChecked_eq {cs : List (Constraint α)} {p : Progress α} (h : ∀ c ∈ cs, c.Within p.point.size)
    (budget : Nat) : closeChecked cs budget p = some (close cs budget p) := by
  rw [closeChecked, Summary.measureChecked_eq h]
  rfl

omit [Scalar α] in
theorem foldlM_eq {β : Type} {f : Progress α → β → Progress α} {g : Progress α → β → Option (Progress α)} {l : List β}
    {p : Progress α} (hp : p.point.size = n) (hmoved : ∀ p x, Moved p (f p x))
    (h : ∀ p : Progress α, p.point.size = n → ∀ x ∈ l, g p x = some (f p x)) : l.foldlM g p = some (l.foldl f p) := by
  have hround : ∀ p : Progress α, ∀ x ∈ l, p.point.size = n → g p x = some (f p x) ∧ (f p x).point.size = n :=
    fun p x hx hp => ⟨h p hp x hx, (hmoved p x).size.trans hp⟩
  exact (foldlM_invariant hround hp).1

/-- A run does not fail if no sweep fails on a point of the size it has. -/
theorem iterateChecked_eq {cs : List (Constraint α)} {budget : Nat} {sweep : Progress α → Progress α}
    {sweepChecked : Progress α → Option (Progress α)} (hsweep : IsSweep cs budget sweep)
    (h : ∀ p : Progress α, p.point.size = n → sweepChecked p = some (sweep p))
    (settled : Progress α → Progress α → Bool) (k : Nat) {p : Progress α} (hp : p.point.size = n) :
    iterateChecked sweepChecked settled k p = some (iterate sweep settled k p) := by
  induction k generalizing p with
  | zero => rfl
  | succ k ih =>
    have hsize : (sweep p).point.size = n := by
      obtain ⟨q, soft, hq, he⟩ := hsweep p
      rw [he]
      exact hq.size.trans hp
    unfold iterateChecked iterate
    split
    · simp only [h p hp, Option.bind_eq_bind, Option.bind_some]
      split
      · rfl
      · exact ih hsize
    · rfl

end Progress

/-! ## Kaczmarz -/

namespace Kaczmarz

def visitChecked (k : Kaczmarz α) (p : Progress α) (x : ConstraintId × Constraint α) : Option (Progress α) := do
  let factor := if x.2.isHard then k.factor else p.strength * x.2.penalty
  let projection ← x.2.projectChecked p.point factor
  return { p with
    point := projection.point
    residuals := p.residuals.record x.1 projection.residual
    scope := p.scope.tally (·.recordProjections projection.moved.toNat) }

def enforceChecked (k : Kaczmarz α) (p : Progress α) (c : Constraint α) : Option (Progress α) := do
  let projection ← c.projectChecked p.point k.factor
  return { p with
    point := projection.point
    scope := p.scope.tally (·.recordProjections projection.moved.toNat) }

def enforceHardChecked (k : Kaczmarz α) (cs : List (Constraint α)) (p : Progress α) : Option (Progress α) :=
  if cs.any (!·.isHard) then (cs.filter (·.isHard)).foldlM k.enforceChecked p else some p

def sweepChecked (k : Kaczmarz α) (list : List (ConstraintId × Constraint α)) (budget : Nat) (p : Progress α) :
    Option (Progress α) := do
  let cs := list.map (·.2)
  let p ← k.enforceHardChecked cs (← list.foldlM k.visitChecked p)
  let p := { p with strength := p.strength * k.cooling, scope := p.scope.tally Stats.recordSweep }
  return (← p.closeChecked cs budget).announce none

def relaxChecked (r : Run α (Kaczmarz α)) (budget : Nat) : Option (Run α (Kaczmarz α) × Outcome α) := do
  let list := r.system.live r.engine.prepared
  let p ← Progress.startChecked (list.map (·.2)) r.system r.engine.factor r.scope
  let p ← p.iterateChecked (r.engine.sweepChecked list budget) (fun _ _ => false) budget
  return p.finish r.engine r.system "Kaczmarz" none

variable (k : Kaczmarz α) {p : Progress α}

theorem visitChecked_eq {x : ConstraintId × Constraint α} (h : x.2.Within p.point.size) :
    k.visitChecked p x = some (k.visit p x) := by
  rw [visitChecked, Constraint.projectChecked_eq h]
  rfl

theorem enforceHardChecked_eq {cs : List (Constraint α)} (hp : p.point.size = n) (h : ∀ c ∈ cs, c.Within n) :
    k.enforceHardChecked cs p = some (k.enforceHard cs p) := by
  unfold enforceHardChecked enforceHard
  split
  · refine Progress.foldlM_eq hp k.enforce_moved fun q hq c hc => ?_
    rw [enforceChecked, Constraint.projectChecked_eq (hq ▸ h c (List.mem_filter.mp hc).1)]
    rfl
  · rfl

theorem sweepChecked_eq {list : List (ConstraintId × Constraint α)} (hp : p.point.size = n)
    (h : ∀ x ∈ list, x.2.Within n) (budget : Nat) : k.sweepChecked list budget p = some (k.sweep list budget p) := by
  have hcs : ∀ c ∈ list.map (·.2), c.Within n := List.forall_mem_map.mpr h
  have hvisit : list.foldlM k.visitChecked p = some (list.foldl k.visit p) :=
    Progress.foldlM_eq hp k.visit_moved fun q hq x hx => k.visitChecked_eq (hq ▸ h x hx)
  have hsize : (list.foldl k.visit p).point.size = n := (Progress.foldl_moved k.visit_moved list p).size.trans hp
  have hsize' : (k.enforceHard (list.map (·.2)) (list.foldl k.visit p)).point.size = n :=
    (k.enforceHard_moved _ _).size.trans hsize
  simp only [sweepChecked, hvisit, k.enforceHardChecked_eq hsize hcs, Option.bind_eq_bind, Option.bind_some]
  rw [Progress.closeChecked_eq (fun c hc => hsize' ▸ hcs c hc)]
  rfl

end Kaczmarz

/-! ## Gauss–Seidel -/

namespace GaussSeidel

def movePivotChecked (factor : α) (c : Constraint α) (pivot : Variable) (deficit : α) (p : Point α) :
    Option (Point α × Bool) :=
  if c.isAtRest deficit then some (p, false)
  else
    let coefficient := c.coefficientOf pivot
    if Scalar.abs coefficient ≤ nearZero then some (p, false)
    else do
      return (← p.moveChecked pivot (weight factor c coefficient * deficit / coefficient), true)

def visitChecked (factor : α) (p : Progress α) (x : PivotEntry × Constraint α) : Option (Progress α) := do
  let deficit ← x.2.deficitChecked p.point
  let (point, moved) ← movePivotChecked factor x.2 x.1.pivot deficit p.point
  return { p with
    point := point
    residuals := if x.1.duplicate then p.residuals else p.residuals.record x.1.constraint (Scalar.abs deficit)
    scope := p.scope.tally (·.recordProjections moved.toNat) }

def enforceChecked (factor : α) (p : Progress α) (x : PivotEntry × Constraint α) : Option (Progress α) := do
  let (point, moved) ← movePivotChecked factor x.2 x.1.pivot (← x.2.deficitChecked p.point) p.point
  return { p with point := point, scope := p.scope.tally (·.recordProjections moved.toNat) }

def sweepChecked (factor : α) (cs : List (Constraint α)) (entries : List (PivotEntry × Constraint α)) (budget : Nat)
    (p : Progress α) : Option (Progress α) := do
  let p ← entries.foldlM (visitChecked factor) p
  let p ← if cs.any (!·.isHard) then (entries.filter (·.2.isHard)).foldlM (enforceChecked factor) p else some p
  let p := { p with scope := p.scope.tally Stats.recordSweep }
  return (← p.closeChecked cs budget).announce none

def relaxChecked (r : Run α (GaussSeidel α γ)) (budget : Nat) : Option (Run α (GaussSeidel α γ) × Outcome α) := do
  let g := r.engine
  let cs := (r.system.live g.prepared).map (·.2)
  let scope := match g.pendingSelection with
    | some duplicates => r.scope.tally (·.recordPivotSelection duplicates)
    | none => r.scope
  let p ← Progress.startChecked cs r.system g.factor scope
  let p ← p.iterateChecked (sweepChecked g.factor cs (liveEntries r.system g.entries) budget) (fun _ _ => false) budget
  return p.finish { g with pendingSelection := none } r.system "GaussSeidel" (some g.selector.name)

variable [Scalar.NullWeight α] {p : Progress α} (factor : α)

/-- A pivot that is moved has weight, so the constraint names it. -/
theorem movePivotChecked_eq {c : Constraint α} {q : Point α} (h : c.Within q.size) (v : Variable) (deficit : α) :
    movePivotChecked factor c v deficit q = some (movePivot factor c v deficit q) := by
  unfold movePivotChecked movePivot
  simp only
  split
  · rfl
  · split
    · rfl
    · rename_i hweight
      have hinside : v.index < q.size := by
        by_contra hout
        have havoids : c.Avoids v.index := fun t ht hv => hout (hv ▸ h t ht)
        rw [havoids.coefficientOf rfl] at hweight
        exact hweight Scalar.NullWeight.abs_zero_le
      rw [Point.moveChecked_eq hinside]
      rfl

theorem visitChecked_eq {x : PivotEntry × Constraint α} (h : x.2.Within p.point.size) :
    visitChecked factor p x = some (visit factor p x) := by
  rw [visitChecked, Constraint.deficitChecked_eq h, Option.bind_eq_bind, Option.bind_some, movePivotChecked_eq factor h]
  rfl

theorem enforceChecked_eq {x : PivotEntry × Constraint α} (h : x.2.Within p.point.size) :
    enforceChecked factor p x = some (enforce factor p x) := by
  rw [enforceChecked, Constraint.deficitChecked_eq h, Option.bind_eq_bind, Option.bind_some, movePivotChecked_eq factor h]
  rfl

theorem sweepChecked_eq {cs : List (Constraint α)} {entries : List (PivotEntry × Constraint α)}
    (hp : p.point.size = n) (hcs : ∀ c ∈ cs, c.Within n) (h : ∀ x ∈ entries, x.2.Within n) (budget : Nat) :
    sweepChecked factor cs entries budget p = some (sweep factor cs entries budget p) := by
  have hvisit : entries.foldlM (visitChecked factor) p = some (entries.foldl (visit factor) p) :=
    Progress.foldlM_eq hp (visit_moved factor) fun q hq x hx => visitChecked_eq factor (hq ▸ h x hx)
  have hsize : (entries.foldl (visit factor) p).point.size = n :=
    (Progress.foldl_moved (visit_moved factor) entries p).size.trans hp
  have hclose : ∀ q : Progress α, q.point.size = n → q.closeChecked cs budget = some (q.close cs budget) :=
    fun q hq => Progress.closeChecked_eq (fun c hc => hq ▸ hcs c hc) budget
  simp only [sweepChecked, sweep, hvisit, Option.bind_eq_bind, Option.bind_some]
  split
  · have henforce : (entries.filter (·.2.isHard)).foldlM (enforceChecked factor) (entries.foldl (visit factor) p) =
        some ((entries.filter (·.2.isHard)).foldl (enforce factor) (entries.foldl (visit factor) p)) :=
      Progress.foldlM_eq hsize (enforce_moved factor) fun q hq x hx =>
        enforceChecked_eq factor (hq ▸ h x (List.mem_filter.mp hx).1)
    rw [henforce, Option.bind_some, hclose]
    · rfl
    · exact (Progress.foldl_moved (enforce_moved factor) _ _).size.trans hsize
  · rw [hclose]
    · rfl
    · exact hsize

end GaussSeidel

/-! ## Force-directed -/

namespace ForceDirected

/-- The springs at a variable.  The constraints that name a variable are asked of the system, which has to own it. -/
def springsChecked (s : System α) (members : List ConstraintId) (v : Variable) : Option (List (Spring α)) := do
  let slot ← s.slot? v
  return s.resolve (slot.active.filter members.contains)

def Pull.addChecked (tolerance : α) (v : Variable) (point : Point α) (f : Pull α) (x : Spring α) :
    Option (Pull α) := do
  let deficit ← x.2.deficitChecked point
  let residuals := f.residuals.record x.1 (Scalar.abs deficit)
  if Scalar.abs deficit < tolerance ∨ x.2.normSquared < nearZero then return { f with residuals := residuals }
  else
    let k := stiffness x.2.penalty
    return {
      pull := f.pull + k * deficit / x.2.normSquared * x.2.coefficientOf v
      weight := f.weight + k
      residuals := residuals }

def pullVariableChecked (s : System α) (members : List ConstraintId) (p : Progress α) (v : Variable) :
    Option (Progress α) := do
  let springs ← springsChecked s members v
  let f ← springs.foldlM (Pull.addChecked p.scope.tolerance v p.point) ⟨0, 0, p.residuals⟩
  if 0 < f.weight then
    return { p with
      point := ← p.point.moveChecked v (p.strength * f.pull / f.weight)
      residuals := f.residuals
      scope := p.scope.tally (·.recordProjections 1) }
  else return { p with residuals := f.residuals }

def enforceChecked (acc : Progress α × Bool) (c : Constraint α) : Option (Progress α × Bool) := do
  let projection ← c.projectChecked acc.1.point 1
  return ({ acc.1 with
      point := projection.point
      scope := acc.1.scope.tally (·.recordProjections projection.moved.toNat) },
    acc.2 || decide (acc.1.scope.tolerance ≤ projection.residual))

def enforceHardChecked (hard : List (Constraint α)) : Nat → Progress α → Option (Progress α)
  | 0, p => some p
  | n + 1, p => do
    let (p, violated) ← hard.foldlM enforceChecked (p, false)
    let p := { p with scope := p.scope.tally Stats.recordSweep }
    if violated then enforceHardChecked hard n p else return p

def roundChecked (s : System α) (cooling : α) (hardSweeps : Nat) (list : List (ConstraintId × Constraint α))
    (budget : Nat) (p : Progress α) : Option (Progress α) := do
  let cs := list.map (·.2)
  let p ← (participants cs).foldlM (pullVariableChecked s (list.map (·.1))) p
  let p ← enforceHardChecked (cs.filter (·.isHard)) hardSweeps p
  let p ← { p with strength := p.strength * cooling }.closeChecked cs budget
  return p.announce (some p.summary.softSquared)

def relaxChecked (r : Run α (ForceDirected α)) (budget : Nat) : Option (Run α (ForceDirected α) × Outcome α) := do
  let f := r.engine
  let list := r.system.live f.prepared
  let p ← Progress.startChecked (list.map (·.2)) r.system 1 r.scope
  let p ← p.iterateChecked (roundChecked r.system f.cooling f.hardSweeps list budget) settled budget
  return p.finish f r.system "ForceDirected" none

variable {s : System α} {p : Progress α}

theorem enforceHardChecked_eq {hard : List (Constraint α)} (hp : p.point.size = n) (h : ∀ c ∈ hard, c.Within n)
    (k : Nat) : enforceHardChecked hard k p = some (enforceHard hard k p) := by
  have hround : ∀ acc : Progress α × Bool, ∀ c ∈ hard, acc.1.point.size = n →
      enforceChecked acc c = some (enforce acc c) ∧ (enforce acc c).1.point.size = n := by
    intro acc c hc hacc
    rw [enforceChecked, Constraint.projectChecked_eq (hacc ▸ h c hc)]
    exact ⟨rfl, (Constraint.size_project c acc.1.point 1).trans hacc⟩
  induction k generalizing p with
  | zero => rfl
  | succ k ih =>
    obtain ⟨hpass, hsize⟩ := foldlM_invariant hround (show (p, false).1.point.size = n from hp)
    unfold enforceHardChecked enforceHard
    rw [hpass, Option.bind_eq_bind, Option.bind_some]
    simp only
    split
    · exact ih hsize
    · rfl

end ForceDirected

/-! ## Well-formed systems -/

namespace System.WellFormed

variable {s : System α}

theorem within (hs : s.WellFormed) {id : ConstraintId} {c : Constraint α} (hc : s.constraint? id = some c) :
    c.Within s.slots.size := by
  intro t ht
  have howned := (hs.fits hc).owned t ht
  simp only [owns, Bool.and_eq_true, decide_eq_true_eq] at howned
  exact howned.2

theorem live_within (hs : s.WellFormed) {ids : List ConstraintId} {x : ConstraintId × Constraint α}
    (hx : x ∈ s.live ids) : x.2.Within s.slots.size := hs.within (mem_live.mp hx).2.1

/-- A variable that some constraint names has a slot, and the value there is inside every point of the system. -/
theorem exists_slot (hs : s.WellFormed) {ids : List ConstraintId} {v : Variable}
    (hv : v ∈ ForceDirected.participants ((s.live ids).map (·.2))) :
    v.index < s.slots.size ∧ ∃ slot, s.slot? v = some slot := by
  obtain ⟨c, hc, t, ht, rfl⟩ := ForceDirected.mem_participants hv
  obtain ⟨x, hx, rfl⟩ := List.mem_map.mp hc
  have hinside := hs.live_within hx t ht
  refine ⟨hinside, s.slots[t.var.index], ?_⟩
  rw [slot?, if_pos ((hs.fits (mem_live.mp hx).2.1).owned t ht), Array.getElem?_eq_getElem hinside]

end System.WellFormed

namespace ForceDirected

variable {s : System α} {p : Progress α} {ids : List ConstraintId}

theorem pullVariableChecked_eq (hs : s.WellFormed) (hp : p.point.size = s.slots.size) {v : Variable}
    (hv : v ∈ participants ((s.live ids).map (·.2))) (members : List ConstraintId) :
    pullVariableChecked s members p v = some (pullVariable p (v, springs s members v)) := by
  obtain ⟨hinside, slot, hslot⟩ := hs.exists_slot hv
  have hsprings : springsChecked s members v = some (springs s members v) := by
    rw [springsChecked, springs, System.activeOf, hslot]
    rfl
  have hpulls : ∀ f, (springs s members v).foldlM (Pull.addChecked p.scope.tolerance v p.point) f =
      some ((springs s members v).foldl (Pull.add p.scope.tolerance v p.point) f) := by
    refine fun f => foldlM_eq_some fun f x hx => ?_
    obtain ⟨id, -, hmap⟩ := List.mem_filterMap.mp hx
    obtain ⟨c, hc, rfl⟩ := Option.map_eq_some_iff.mp hmap
    simp only [Pull.addChecked, Constraint.deficitChecked_eq (hp ▸ hs.within hc), Option.bind_eq_bind, Option.bind_some,
      Pull.add]
    split <;> rfl
  simp only [pullVariableChecked, hsprings, Option.bind_eq_bind, Option.bind_some, hpulls, pullVariable]
  split
  · rw [Point.moveChecked_eq (hp ▸ hinside)]
    rfl
  · rfl

theorem roundChecked_eq (hs : s.WellFormed) (hp : p.point.size = s.slots.size) (ids : List ConstraintId) (cooling : α)
    (hardSweeps budget : Nat) :
    let list := s.live ids
    roundChecked s cooling hardSweeps list budget p = some (round cooling hardSweeps (list.map (·.2))
      ((participants (list.map (·.2))).map fun v => (v, springs s (list.map (·.1)) v)) budget p) := by
  intro list
  have hcs : ∀ c ∈ list.map (·.2), c.Within s.slots.size := List.forall_mem_map.mpr fun x hx => hs.live_within hx
  let pull (p : Progress α) (v : Variable) : Progress α := pullVariable p (v, springs s (list.map (·.1)) v)
  let pulled := (participants (list.map (·.2))).foldl pull p
  have hmoved : ∀ p v, Progress.Moved p (pull p v) := fun p v => pullVariable_moved p _
  have hpull : (participants (list.map (·.2))).foldlM (pullVariableChecked s (list.map (·.1))) p = some pulled :=
    Progress.foldlM_eq hp hmoved fun q hq v hv => pullVariableChecked_eq hs hq hv _
  have hsize : pulled.point.size = s.slots.size := (Progress.foldl_moved hmoved _ p).size.trans hp
  let hard := (list.map (·.2)).filter (·.isHard)
  have hhard : enforceHardChecked hard hardSweeps pulled = some (enforceHard hard hardSweeps pulled) :=
    enforceHardChecked_eq hsize (fun c hc => hcs c (List.mem_filter.mp hc).1) hardSweeps
  have hsize' : (enforceHard hard hardSweeps pulled).point.size = s.slots.size :=
    (enforceHard_moved hard hardSweeps pulled).size.trans hsize
  unfold roundChecked round
  rw [List.foldl_map]
  simp only [hpull, Option.bind_eq_bind, Option.bind_some]
  rw [hhard, Option.bind_some, Progress.closeChecked_eq fun c hc => hsize' ▸ hcs c hc]
  rfl

end ForceDirected

/-! ## Relaxations -/

section Relaxations

variable {s : System α} (scope : Scope α) (budget : Nat)

theorem Kaczmarz.relaxChecked_eq (hs : s.WellFormed) (k : Kaczmarz α) :
    relaxChecked ⟨k, s, scope⟩ budget = some (relax ⟨k, s, scope⟩ budget) := by
  have hlist : ∀ x ∈ s.live k.prepared, x.2.Within s.slots.size := fun x hx => hs.live_within hx
  have hsweep : Progress.IsSweep ((s.live k.prepared).map (·.2)) budget (k.sweep (s.live k.prepared) budget) :=
    fun p => ⟨k.moves _ p, none, k.moves_moved _ p, rfl⟩
  simp only [relaxChecked, Progress.startChecked_eq (List.forall_mem_map.mpr hlist), Option.bind_eq_bind,
    Option.bind_some]
  rw [Progress.iterateChecked_eq hsweep (fun p hp => k.sweepChecked_eq hp hlist budget) _ _ s.size_values]
  rfl

theorem GaussSeidel.relaxChecked_eq [Scalar.NullWeight α] (hs : s.WellFormed) (g : GaussSeidel α γ) :
    relaxChecked ⟨g, s, scope⟩ budget = some (relax ⟨g, s, scope⟩ budget) := by
  have hcs : ∀ c ∈ (s.live g.prepared).map (·.2), c.Within s.slots.size :=
    List.forall_mem_map.mpr fun x hx => hs.live_within hx
  have hentries : ∀ x ∈ liveEntries s g.entries, x.2.Within s.slots.size := by
    intro x hx
    obtain ⟨e, -, hmap⟩ := List.mem_filterMap.mp (List.mem_filter.mp hx).1
    obtain ⟨c, hc, rfl⟩ := Option.map_eq_some_iff.mp hmap
    exact hs.within hc
  have hsweep : Progress.IsSweep ((s.live g.prepared).map (·.2)) budget
      (sweep g.factor ((s.live g.prepared).map (·.2)) (liveEntries s g.entries) budget) :=
    fun p => ⟨moves _ _ _ p, none, moves_moved _ _ _ p, rfl⟩
  simp only [relaxChecked, Progress.startChecked_eq hcs, Option.bind_eq_bind, Option.bind_some]
  rw [Progress.iterateChecked_eq hsweep (fun p hp => sweepChecked_eq g.factor hp hcs hentries budget) _ _ s.size_values]
  rfl

theorem ForceDirected.relaxChecked_eq (hs : s.WellFormed) (f : ForceDirected α) :
    relaxChecked ⟨f, s, scope⟩ budget = some (relax ⟨f, s, scope⟩ budget) := by
  have hcs : ∀ c ∈ (s.live f.prepared).map (·.2), c.Within s.slots.size :=
    List.forall_mem_map.mpr fun x hx => hs.live_within hx
  let nodes := (participants ((s.live f.prepared).map (·.2))).map fun v =>
    (v, springs s ((s.live f.prepared).map (·.1)) v)
  have hsweep : Progress.IsSweep ((s.live f.prepared).map (·.2)) budget
      (round f.cooling f.hardSweeps ((s.live f.prepared).map (·.2)) nodes budget) :=
    fun p => ⟨moves _ _ _ nodes p, _, moves_moved _ _ _ nodes p, rfl⟩
  simp only [relaxChecked, Progress.startChecked_eq hcs, Option.bind_eq_bind, Option.bind_some]
  rw [Progress.iterateChecked_eq hsweep (fun p hp => roundChecked_eq hs hp f.prepared f.cooling f.hardSweeps budget) _ _
    s.size_values]
  rfl

end Relaxations

def Engine.relaxChecked (r : Run α (Engine α γ)) (budget : Nat) : Option (Run α (Engine α γ) × Outcome α) :=
  match r.engine with
  | kaczmarz k => (Kaczmarz.relaxChecked (r.map fun _ => k) budget).map (Prod.map (Run.map kaczmarz) id)
  | gaussSeidel g => (GaussSeidel.relaxChecked (r.map fun _ => g) budget).map (Prod.map (Run.map gaussSeidel) id)
  | forceDirected f => (ForceDirected.relaxChecked (r.map fun _ => f) budget).map (Prod.map (Run.map forceDirected) id)

/-- **A relaxation of a well-formed system runs through**, whatever the engine has kept from earlier. -/
theorem Engine.relaxChecked_eq [Generator γ] [Scalar.NullWeight α] {r : Run α (Engine α γ)} (hs : r.system.WellFormed)
    (budget : Nat) : relaxChecked r budget = some (Relaxation.relax r budget) := by
  obtain ⟨e, s, scope⟩ := r
  cases e with
  | kaczmarz k => exact congrArg (Option.map _) (k.relaxChecked_eq scope budget hs)
  | gaussSeidel g => exact congrArg (Option.map _) (g.relaxChecked_eq scope budget hs)
  | forceDirected f => exact congrArg (Option.map _) (f.relaxChecked_eq scope budget hs)

end SoftLinear
