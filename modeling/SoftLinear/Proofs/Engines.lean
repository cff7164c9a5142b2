import SoftLinear.Proofs.Sweeps
import SoftLinear.Relaxation.Engine

/-!
# The three relaxations

Each of the three relaxations is a run of sweeps in the sense of `Progress.IsSweep`, and each of its sweeps does the
same under any two budgets (`Progress.SameSweep`).  What a caller may rely on follows from that alone:

* `Engine.relax_run` says what a relaxation returns, in terms of the state in which its run stops;
* `Relaxation.Lawful` says what a relaxation leaves alone, and what it means that it ends well.
-/

namespace SoftLinear

variable {α γ : Type} [Scalar α]

open Progress

/-! ## Scopes -/

/-- The second scope is the first one later on: the tolerance is the same and the log goes on. -/
structure Scope.Extends (a b : Scope α) : Prop where
  tolerance : b.tolerance = a.tolerance
  log : a.log.toList <+: b.log.toList

omit [Scalar α] in
theorem Scope.Extends.refl (a : Scope α) : a.Extends a := ⟨rfl, List.prefix_refl _⟩

omit [Scalar α] in
theorem Scope.Extends.trans {a b c : Scope α} (h : a.Extends b) (k : b.Extends c) : a.Extends c :=
  ⟨k.tolerance.trans h.tolerance, h.log.trans k.log⟩

omit [Scalar α] in
theorem Scope.report_extends (a : Scope α) (e : Event α) : a.Extends (a.report e) := ⟨rfl, by simp [Scope.report]⟩

/-! ## Verdicts -/

namespace Status

/-- The status of a run of which it is known whether all residuals are below the tolerance, whether the hard ones are, and
whether these are shrinking fast. -/
def verdict (all hard shrinking : Prop) [Decidable all] [Decidable hard] [Decidable shrinking] : Status :=
  if all then .optimal else if hard then .suboptimal else if shrinking then .suboptimal else .infeasible

variable {all hard shrinking : Prop} [Decidable all] [Decidable hard] [Decidable shrinking]

theorem verdict_eq_optimal : verdict all hard shrinking = .optimal ↔ all := by
  unfold verdict
  by_cases ha : all <;> by_cases hh : hard <;> by_cases hs : shrinking <;> simp [ha, hh, hs]

theorem verdict_eq_suboptimal : verdict all hard shrinking = .suboptimal ↔ ¬ all ∧ (hard ∨ shrinking) := by
  unfold verdict
  by_cases ha : all <;> by_cases hh : hard <;> by_cases hs : shrinking <;> simp [ha, hh, hs]

theorem verdict_eq_infeasible : verdict all hard shrinking = .infeasible ↔ ¬ all ∧ ¬ hard ∧ ¬ shrinking := by
  unfold verdict
  by_cases ha : all <;> by_cases hh : hard <;> by_cases hs : shrinking <;> simp [ha, hh, hs]

end Status

/-! ## Single steps -/

/-- **What projecting does**: nothing where the constraint is at rest or its weights vanish, else a move along the
weights. -/
theorem Constraint.project_inv (c : Constraint α) (p : Point α) (factor : α) :
    (c.isAtRest (c.deficit p) = true ∧ c.project p factor = ⟨p, 0, false⟩) ∨
      (c.isAtRest (c.deficit p) = false ∧ c.normSquared < nearZero ∧
        c.project p factor = ⟨p, Scalar.abs (c.deficit p), false⟩) ∨
      (c.isAtRest (c.deficit p) = false ∧ ¬ c.normSquared < nearZero ∧
        c.project p factor =
          ⟨c.shift p (factor * c.deficit p / c.normSquared), Scalar.abs (c.deficit p), true⟩) := by
  unfold project
  simp only
  split
  · rename_i hrest
    exact .inl ⟨hrest, rfl⟩
  · rename_i hrest
    split
    · rename_i hnorm
      exact .inr (.inl ⟨Bool.eq_false_iff.mpr hrest, hnorm, rfl⟩)
    · rename_i hnorm
      exact .inr (.inr ⟨Bool.eq_false_iff.mpr hrest, hnorm, rfl⟩)

/-- **What moving a pivot does**: nothing where the constraint is at rest or the pivot has no weight, else a move of the
pivot. -/
theorem GaussSeidel.movePivot_inv (factor : α) (c : Constraint α) (v : Variable) (deficit : α) (p : Point α) :
    ((c.isAtRest deficit = true ∨ Scalar.abs (c.coefficientOf v) ≤ nearZero) ∧
        movePivot factor c v deficit p = (p, false)) ∨
      (c.isAtRest deficit = false ∧ ¬ Scalar.abs (c.coefficientOf v) ≤ nearZero ∧
        movePivot factor c v deficit p =
          (p.move v (weight factor c (c.coefficientOf v) * deficit / c.coefficientOf v), true)) := by
  unfold movePivot
  simp only
  split
  · rename_i hrest
    exact .inl ⟨.inl hrest, rfl⟩
  · rename_i hrest
    split
    · rename_i hweight
      exact .inl ⟨.inr hweight, rfl⟩
    · rename_i hweight
      exact .inr ⟨Bool.eq_false_iff.mpr hrest, hweight, rfl⟩

/-! ## Moves keep the size of a point -/

@[simp] theorem Point.size_move (p : Point α) (v : Variable) (amount : α) : (p.move v amount).size = p.size := by
  simp [Point.move]

@[simp] theorem Constraint.size_shift (c : Constraint α) (p : Point α) (step : α) : (c.shift p step).size = p.size := by
  unfold Constraint.shift
  induction c.terms generalizing p with
  | nil => rfl
  | cons t ts ih => rw [List.foldl_cons, ih, Point.size_move]

@[simp] theorem Constraint.size_project (c : Constraint α) (p : Point α) (factor : α) :
    (c.project p factor).point.size = p.size := by
  rcases c.project_inv p factor with ⟨-, h⟩ | ⟨-, -, h⟩ | ⟨-, -, h⟩
  · rw [h]
  · rw [h]
  · rw [h, Constraint.size_shift]

/-! ## Kaczmarz -/

namespace Kaczmarz

variable (k : Kaczmarz α) (list : List (ConstraintId × Constraint α)) (cs : List (Constraint α))

/-- The moves of a sweep: a pass over all constraints and, where soft ones take part, one over the hard ones. -/
def moves (p : Progress α) : Progress α :=
  let q := k.enforceHard (list.map (·.2)) (list.foldl k.visit p)
  { q with strength := q.strength * k.cooling, scope := q.scope.tally Stats.recordSweep }

theorem sweep_eq (b : Nat) : k.sweep list b = sweepOf (k.moves list) (fun _ => none) (list.map (·.2)) b := rfl

theorem visit_moved (p : Progress α) (x : ConstraintId × Constraint α) : Moved p (k.visit p x) :=
  ⟨Constraint.size_project _ _ _, rfl, rfl, rfl, rfl⟩

theorem enforce_moved (p : Progress α) (c : Constraint α) : Moved p (k.enforce p c) :=
  ⟨Constraint.size_project _ _ _, rfl, rfl, rfl, rfl⟩

theorem enforceHard_moved (p : Progress α) : Moved p (k.enforceHard cs p) := by
  unfold enforceHard
  split
  · exact foldl_moved k.enforce_moved _ p
  · exact .refl p

theorem moves_moved (p : Progress α) : Moved p (k.moves list p) := by
  have h := (foldl_moved k.visit_moved list p).trans (k.enforceHard_moved (list.map (·.2)) _)
  exact ⟨h.size, h.sweeps, h.checkpoint, h.tolerance, h.log⟩

theorem sweep_isSweep (b : Nat) : IsSweep (list.map (·.2)) b (k.sweep list b) := by
  rw [sweep_eq]
  exact sweepOf_isSweep (k.moves_moved list) _ _ b

/-- A run stops after a number of sweeps, which it counts. -/
theorem relax_halts (r : Run α (Kaczmarz α)) (budget : Nat) :
    let list := r.system.live r.engine.prepared
    let sweep := r.engine.sweep list budget
    let start := Progress.start (list.map (·.2)) r.system r.engine.factor r.scope
    ∃ j, Halts sweep (fun _ _ => false) budget start j ∧
      iterate sweep (fun _ _ => false) budget start = sweep^[j] start ∧ (Relaxation.relax r budget).2.sweeps = j := by
  intro list sweep start
  obtain ⟨j, hj, he⟩ := iterate_halts sweep (fun _ _ => false) budget start
  refine ⟨j, hj, he, ?_⟩
  have hcount := (r.engine.sweep_isSweep list budget).sweeps_iterate start j
  rw [← he] at hcount
  exact hcount.trans (Nat.zero_add j)

theorem enforceHard_unmarked (p : Progress α) : (k.enforceHard cs p).unmarked = k.enforceHard cs p.unmarked := by
  unfold enforceHard
  split
  · exact foldl_unmarked (fun _ _ => rfl) _ p
  · rfl

theorem moves_unmarked (p : Progress α) : (k.moves list p).unmarked = k.moves list p.unmarked := by
  unfold moves
  rw [← foldl_unmarked (fun _ _ => rfl), ← enforceHard_unmarked]
  rfl

end Kaczmarz

/-! ## Gauss–Seidel -/

namespace GaussSeidel

variable (factor : α) (cs : List (Constraint α)) (entries : List (PivotEntry × Constraint α))

/-- The moves of a sweep: a pass over all entries and, where soft constraints take part, one over the hard ones. -/
def moves (p : Progress α) : Progress α :=
  let q := entries.foldl (visit factor) p
  let q := if cs.any (!·.isHard) then (entries.filter (·.2.isHard)).foldl (enforce factor) q else q
  { q with scope := q.scope.tally Stats.recordSweep }

theorem size_movePivot (c : Constraint α) (v : Variable) (deficit : α) (p : Point α) :
    (movePivot factor c v deficit p).1.size = p.size := by
  rcases movePivot_inv factor c v deficit p with ⟨-, h⟩ | ⟨-, -, h⟩
  · rw [h]
  · rw [h, Point.size_move]

theorem visit_moved (p : Progress α) (x : PivotEntry × Constraint α) : Moved p (visit factor p x) :=
  ⟨size_movePivot _ _ _ _ _, rfl, rfl, rfl, rfl⟩

theorem enforce_moved (p : Progress α) (x : PivotEntry × Constraint α) : Moved p (enforce factor p x) :=
  ⟨size_movePivot _ _ _ _ _, rfl, rfl, rfl, rfl⟩

theorem moves_moved (p : Progress α) : Moved p (moves factor cs entries p) := by
  have hv := foldl_moved (visit_moved factor) entries p
  unfold moves
  simp only
  split
  · have h := hv.trans (foldl_moved (enforce_moved factor) (entries.filter (·.2.isHard)) _)
    exact ⟨h.size, h.sweeps, h.checkpoint, h.tolerance, h.log⟩
  · exact ⟨hv.size, hv.sweeps, hv.checkpoint, hv.tolerance, hv.log⟩

theorem moves_unmarked (p : Progress α) :
    (moves factor cs entries p).unmarked = moves factor cs entries p.unmarked := by
  unfold moves
  rw [← foldl_unmarked (f := visit factor) (fun _ _ => rfl)]
  simp only
  split
  · rw [← foldl_unmarked (f := enforce factor) (fun _ _ => rfl)]
    rfl
  · rfl

end GaussSeidel

/-! ## Force-directed -/

namespace ForceDirected

variable (cooling : α) (hardSweeps : Nat) (cs : List (Constraint α)) (nodes : List (Variable × List (Spring α)))

/-- The moves of a round: a pull on every variable, then passes over the hard constraints. -/
def moves (p : Progress α) : Progress α :=
  let q := enforceHard (cs.filter (·.isHard)) hardSweeps (nodes.foldl pullVariable p)
  { q with strength := q.strength * cooling }

theorem pullVariable_moved (p : Progress α) (x : Variable × List (Spring α)) : Moved p (pullVariable p x) := by
  unfold pullVariable
  simp only
  split
  · exact ⟨Point.size_move _ _ _, rfl, rfl, rfl, rfl⟩
  · exact ⟨rfl, rfl, rfl, rfl, rfl⟩

theorem foldl_enforce_moved (hard : List (Constraint α)) (acc : Progress α × Bool) :
    Moved acc.1 (hard.foldl enforce acc).1 := by
  induction hard generalizing acc with
  | nil => exact .refl _
  | cons c hard ih =>
    have hc : Moved acc.1 (enforce acc c).1 := ⟨Constraint.size_project _ _ _, rfl, rfl, rfl, rfl⟩
    exact hc.trans (ih _)

theorem enforceHard_moved (hard : List (Constraint α)) (n : Nat) (p : Progress α) : Moved p (enforceHard hard n p) := by
  induction n generalizing p with
  | zero => exact .refl p
  | succ n ih =>
    have h := foldl_enforce_moved hard (p, false)
    have hq : Moved p { (hard.foldl enforce (p, false)).1 with
        scope := (hard.foldl enforce (p, false)).1.scope.tally Stats.recordSweep } :=
      ⟨h.size, h.sweeps, h.checkpoint, h.tolerance, h.log⟩
    unfold enforceHard
    simp only
    split
    · exact hq.trans (ih _)
    · exact hq

theorem moves_moved (p : Progress α) : Moved p (moves cooling hardSweeps cs nodes p) := by
  have h := (foldl_moved pullVariable_moved nodes p).trans (enforceHard_moved (cs.filter (·.isHard)) hardSweeps _)
  exact ⟨h.size, h.sweeps, h.checkpoint, h.tolerance, h.log⟩

theorem pullVariable_unmarked (p : Progress α) (x : Variable × List (Spring α)) :
    (pullVariable p x).unmarked = pullVariable p.unmarked x := by
  unfold pullVariable
  by_cases h : 0 < (x.2.foldl (Pull.add p.scope.tolerance x.1 p.point) ⟨0, 0, p.residuals⟩).weight
  · simp [unmarked, h]
  · simp [unmarked, h]

theorem foldl_enforce_unmarked (hard : List (Constraint α)) (p : Progress α) (flag : Bool) :
    hard.foldl enforce (p.unmarked, flag) =
      ((hard.foldl enforce (p, flag)).1.unmarked, (hard.foldl enforce (p, flag)).2) := by
  induction hard generalizing p flag with
  | nil => rfl
  | cons c hard ih => exact ih (enforce (p, flag) c).1 (enforce (p, flag) c).2

theorem enforceHard_unmarked (hard : List (Constraint α)) (n : Nat) (p : Progress α) :
    (enforceHard hard n p).unmarked = enforceHard hard n p.unmarked := by
  induction n generalizing p with
  | zero => rfl
  | succ n ih =>
    unfold enforceHard
    rw [foldl_enforce_unmarked]
    simp only
    split
    · exact ih _
    · rfl

theorem moves_unmarked (p : Progress α) :
    (moves cooling hardSweeps cs nodes p).unmarked = moves cooling hardSweeps cs nodes p.unmarked := by
  unfold moves
  rw [← foldl_unmarked pullVariable_unmarked, ← enforceHard_unmarked]
  rfl

theorem settled_unmarked {p p' q q' : Progress α} (hp : p.unmarked = p'.unmarked) (hq : q.unmarked = q'.unmarked) :
    settled p q = settled p' q' := by
  have h1 : p.summary = p'.summary := (congrArg Progress.summary hp :)
  have h2 : q.summary = q'.summary := (congrArg Progress.summary hq :)
  have h3 : q.scope = q'.scope := (congrArg Progress.scope hq :)
  unfold settled
  rw [h1, h2, h3]

end ForceDirected

/-! ## Engines -/

namespace Engine

/-- The list that a relaxation is prepared for. -/
def prepared : Engine α γ → List ConstraintId
  | kaczmarz k => k.prepared
  | gaussSeidel g => g.prepared
  | forceDirected f => f.prepared

/-- The constraints that a relaxation is going to sweep over. -/
def active (r : Run α (Engine α γ)) : List (Constraint α) := (r.system.live r.engine.prepared).map (·.2)

/-- The course of a relaxation. -/
def course (r : Run α (Engine α γ)) : Course α :=
  match r.engine with
  | kaczmarz k =>
    { constraints := active r
      base := Progress.start (active r) r.system k.factor r.scope
      move := k.moves (r.system.live k.prepared)
      soft := fun _ => none
      settled := fun _ _ => false }
  | gaussSeidel g =>
    { constraints := active r
      base := Progress.start (active r) r.system g.factor (match g.pendingSelection with
        | some duplicates => r.scope.tally (·.recordPivotSelection duplicates)
        | none => r.scope)
      move := GaussSeidel.moves g.factor (active r) (GaussSeidel.liveEntries r.system g.entries)
      soft := fun _ => none
      settled := fun _ _ => false }
  | forceDirected f =>
    { constraints := active r
      base := Progress.start (active r) r.system 1 r.scope
      move := ForceDirected.moves f.cooling f.hardSweeps (active r)
        ((ForceDirected.participants (active r)).map fun v =>
          (v, ForceDirected.springs r.system ((r.system.live f.prepared).map (·.1)) v))
      soft := fun s => some s.softSquared
      settled := ForceDirected.settled }

theorem course_constraints (r : Run α (Engine α γ)) : (course r).constraints = active r := by
  unfold course
  split <;> rfl

theorem course_sound (r : Run α (Engine α γ)) : (course r).Sound := by
  unfold course
  split
  · rename_i k _
    exact ⟨start_tracked _ _ _ _, rfl, rfl, k.moves_moved _, k.moves_unmarked _, fun _ _ _ _ _ _ => rfl,
      fun _ _ h => by cases h⟩
  · exact ⟨start_tracked _ _ _ _, rfl, rfl, GaussSeidel.moves_moved _ _ _, GaussSeidel.moves_unmarked _ _ _,
      fun _ _ _ _ _ _ => rfl, fun _ _ h => by cases h⟩
  · refine ⟨start_tracked _ _ _ _, rfl, rfl, ForceDirected.moves_moved _ _ _ _, ForceDirected.moves_unmarked _ _ _ _,
      fun _ _ _ _ => ForceDirected.settled_unmarked, ?_⟩
    intro p q h
    simp only [ForceDirected.settled, Bool.and_eq_true, decide_eq_true_eq] at h
    exact h.1

theorem course_base (r : Run α (Engine α γ)) :
    (course r).base.point = r.system.values ∧ (course r).base.scope.tolerance = r.scope.tolerance ∧
      (course r).base.scope.log = r.scope.log := by
  unfold course
  split
  · exact ⟨rfl, rfl, rfl⟩
  · rename_i g _
    cases g.pendingSelection <;> exact ⟨rfl, rfl, rfl⟩
  · exact ⟨rfl, rfl, rfl⟩

theorem base_summary (r : Run α (Engine α γ)) :
    (course r).base.summary = Summary.measure (active r) r.system.values := by
  rw [(course_sound r).tracked.summary, course_constraints, (course_base r).1]

theorem state_of_met {r : Run α (Engine α γ)}
    (h : ¬ r.scope.tolerance ≤ (Summary.measure (active r) r.system.values).max) (n : Nat) :
    (course r).state n = (course r).base := by
  unfold Course.state
  cases n with
  | zero => rfl
  | succ n =>
    unfold Progress.iterate
    rw [base_summary, (course_base r).2.1]
    exact if_neg h

theorem size_state (r : Run α (Engine α γ)) (n : Nat) : ((course r).state n).point.size = r.system.slots.size := by
  rw [((course_sound r).tracked_state n).size, (course_base r).1, System.size_values]

theorem tolerance_state (r : Run α (Engine α γ)) (n : Nat) :
    ((course r).state n).scope.tolerance = r.scope.tolerance :=
  ((course_sound r).tracked_state n).tolerance.trans (course_base r).2.1

/-- Whether a relaxation may stop because a sweep has hardly changed anything. -/
def settles : Engine α γ → Bool
  | forceDirected _ => true
  | _ => false

theorem settles_of_settled {r : Run α (Engine α γ)} {p q : Progress α} (h : (course r).settled p q = true) :
    r.engine.settles = true := by
  obtain ⟨e, s, scope⟩ := r
  cases e with
  | kaczmarz k => cases h
  | gaussSeidel g => cases h
  | forceDirected f => rfl

variable [Generator γ]

/-- **What a relaxation returns**, in terms of the state in which its course stops. -/
theorem relax_run (r : Run α (Engine α γ)) (n : Nat) :
    (Relaxation.relax r n).1.system = r.system.storeValues ((course r).state n).point ∧
      (Relaxation.relax r n).2.status = ((course r).state n).classify ∧
      ∃ e : Event α, e.sweepReport? = none ∧
        (Relaxation.relax r n).1.scope = ((course r).state n).scope.report e := by
  obtain ⟨e, s, scope⟩ := r
  cases e <;> exact ⟨rfl, rfl, _, rfl, rfl⟩

/-- Two relaxations of the same kind and budget. -/
structure Alike (e e' : Engine α γ) : Prop where
  budget : e'.budget = e.budget
  settles : e'.settles = e.settles

omit [Scalar α] [Generator γ] in
theorem Alike.trans {e e' e'' : Engine α γ} (h : Alike e e') (k : Alike e' e'') : Alike e e'' :=
  ⟨k.budget.trans h.budget, k.settles.trans h.settles⟩

theorem relax_engine (r : Run α (Engine α γ)) (n : Nat) :
    Alike r.engine (Relaxation.relax r n).1.engine ∧
      (Relaxation.relax r n).1.engine.prepared = r.engine.prepared := by
  obtain ⟨e, s, scope⟩ := r
  cases e <;> exact ⟨⟨rfl, rfl⟩, rfl⟩

theorem prepare_engine (r : Run α (Engine α γ)) (ids : List ConstraintId) :
    Alike r.engine (Relaxation.prepare r ids).engine ∧ (Relaxation.prepare r ids).engine.prepared = ids := by
  obtain ⟨e, s, scope⟩ := r
  cases e <;> exact ⟨⟨rfl, rfl⟩, rfl⟩

theorem withdraw_engine (e : Engine α γ) (s : System α) (id : ConstraintId) :
    Alike e (Relaxation.withdraw e s id).1 ∧
      (Relaxation.withdraw e s id).1.prepared = id.erase e.prepared ∧ (Relaxation.withdraw e s id).2 = true := by
  cases e <;> exact ⟨⟨rfl, rfl⟩, rfl, rfl⟩

theorem prepare_rules (r : Run α (Engine α γ)) (ids : List ConstraintId) :
    r.system.SameRules (Relaxation.prepare r ids).system := by
  obtain ⟨e, s, scope⟩ := r
  cases e with
  | kaczmarz k => exact .refl s
  | gaussSeidel g => exact System.apply_sameRules _ s
  | forceDirected f => exact .refl s

theorem prepare_scope (r : Run α (Engine α γ)) (ids : List ConstraintId) :
    r.scope.Extends (Relaxation.prepare r ids).scope ∧
      sweepReports (Relaxation.prepare r ids).scope.log = sweepReports r.scope.log := by
  obtain ⟨e, s, scope⟩ := r
  cases e with
  | kaczmarz k => exact ⟨.refl scope, rfl⟩
  | gaussSeidel g =>
    refine ⟨Scope.report_extends scope _, ?_⟩
    exact (sweepReports_push scope.log _).trans (List.append_nil _)
  | forceDirected f => exact ⟨.refl scope, rfl⟩

theorem relax_rules (r : Run α (Engine α γ)) (n : Nat) : r.system.SameRules (Relaxation.relax r n).1.system := by
  rw [(relax_run r n).1]
  exact System.storeValues_sameRules _ _

theorem relax_values (r : Run α (Engine α γ)) (n : Nat) :
    (Relaxation.relax r n).1.system.values = ((course r).state n).point := by
  rw [(relax_run r n).1]
  exact System.values_storeValues _ (size_state r n)

theorem relax_scope (r : Run α (Engine α γ)) (n : Nat) : r.scope.Extends (Relaxation.relax r n).1.scope := by
  obtain ⟨-, -, e, -, he⟩ := relax_run r n
  rw [he]
  refine .trans ⟨tolerance_state r n, ?_⟩ (Scope.report_extends _ e)
  have h := ((course_sound r).tracked_state n).log
  rwa [(course_base r).2.2] at h

/-- The residuals of the swept constraints at the values that a relaxation under a budget leaves. -/
def summaryAfter (r : Run α (Engine α γ)) (n : Nat) : Summary α :=
  Summary.measure (active r) (Relaxation.relax r n).1.system.values

theorem summary_state (r : Run α (Engine α γ)) (n : Nat) : ((course r).state n).summary = summaryAfter r n := by
  rw [((course_sound r).tracked_state n).summary, course_constraints, summaryAfter, relax_values]

/-- **How a relaxation is judged.**  Its status is decided by the residuals at the values that it leaves and, where the
hard ones are not below the tolerance, by those that it would leave under half of its budget. -/
theorem relax_spec (r : Run α (Engine α γ)) (n : Nat) : ∃ k ≤ n,
    sweepReports (Relaxation.relax r n).1.scope.log =
      sweepReports r.scope.log ++ (List.range k).map (fun j => (j + 1, (summaryAfter r (j + 1)).hard)) ∧
    (Relaxation.relax r n).2.status =
      .verdict ((summaryAfter r n).max < r.scope.tolerance) ((summaryAfter r n).hard < r.scope.tolerance)
        (max 1 (n / 2) ≤ k ∧ (summaryAfter r n).hard < (summaryAfter r (max 1 (n / 2))).hard * convergingShare) ∧
    (k = n ∨ ¬ r.scope.tolerance ≤ (summaryAfter r n).max ∨
      r.engine.settles = true ∧ (summaryAfter r n).hard < r.scope.tolerance) := by
  obtain ⟨k, hk, -, hreports, hcheck, hstop⟩ := (course_sound r).state_spec n
  obtain ⟨-, hstatus, e, he, hscope⟩ := relax_run r n
  simp only [summary_state] at hreports hcheck hstop
  refine ⟨k, hk, ?_, ?_, ?_⟩
  · rw [hscope]
    simp only [Scope.report]
    rw [sweepReports_push, he, hreports, (course_base r).2.2, Option.toList_none, List.append_nil]
  · rw [hstatus, Progress.classify, hcheck, summary_state, tolerance_state]
    unfold Status.verdict
    by_cases hmid : max 1 (n / 2) ≤ k
    · simp [hmid]
    · simp [hmid]
  · rw [tolerance_state] at hstop
    rcases hstop with hn | hmax | ⟨p, hp⟩
    · exact .inl hn
    · exact .inr (.inl hmax)
    · refine .inr (.inr ⟨settles_of_settled hp, ?_⟩)
      have h := (course_sound r).settled_hard _ _ hp
      rwa [summary_state, tolerance_state] at h

end Engine

/-! ## What strategies rely on -/

/-- What every relaxation of the library guarantees to the strategies that use it: it changes only values and pivots and
only adds to the log, and when it ends optimally all residuals of the constraints it was prepared for are below the
tolerance. -/
class Relaxation.Lawful (α ρ : Type) [Scalar α] [Relaxation α ρ] : Prop where
  prepare_rules : ∀ (r : Run α ρ) ids, r.system.SameRules (prepare r ids).system
  prepare_scope : ∀ (r : Run α ρ) ids, r.scope.Extends (prepare r ids).scope
  relax_rules : ∀ (r : Run α ρ) n, r.system.SameRules (relax r n).1.system
  relax_scope : ∀ (r : Run α ρ) n, r.scope.Extends (relax r n).1.scope
  relax_optimal : ∀ (r : Run α ρ) ids n, (relax (prepare r ids) n).2.status = .optimal →
    (Summary.measure ((r.system.live ids).map (·.2)) (relax (prepare r ids) n).1.system.values).max < r.scope.tolerance

/-- A relaxation that leaves the rules of the system and the tolerance alone, however it ends. -/
class Relaxation.KeepsRules (α ρ : Type) [Relaxation α ρ] : Prop where
  prepare_rules : ∀ (r : Run α ρ) ids, r.system.SameRules (prepare r ids).system
  prepare_tolerance : ∀ (r : Run α ρ) ids, (prepare r ids).scope.tolerance = r.scope.tolerance
  relax_rules : ∀ (r : Run α ρ) n, r.system.SameRules (relax r n).1.system
  relax_tolerance : ∀ (r : Run α ρ) n, (relax r n).1.scope.tolerance = r.scope.tolerance

instance (α ρ : Type) [Scalar α] [Relaxation α ρ] [h : Relaxation.Lawful α ρ] : Relaxation.KeepsRules α ρ where
  prepare_rules := h.prepare_rules
  prepare_tolerance r ids := (h.prepare_scope r ids).tolerance
  relax_rules := h.relax_rules
  relax_tolerance r n := (h.relax_scope r n).tolerance

theorem Summary.measure_of_rules {s t : System α} (h : s.SameRules t) (ids : List ConstraintId) (p : Point α) :
    measure ((t.live ids).map (·.2)) p = measure ((s.live ids).map (·.2)) p := by
  have hb := congrArg (List.map Prod.snd) (h.live_bare ids)
  simp only [List.map_map] at hb
  rw [← measure_bare ((t.live ids).map (·.2)), ← measure_bare ((s.live ids).map (·.2)), List.map_map, List.map_map]
  exact congrArg (measure · p) hb

instance [Generator γ] : Relaxation.Lawful α (Engine α γ) where
  prepare_rules := Engine.prepare_rules
  prepare_scope r ids := (Engine.prepare_scope r ids).1
  relax_rules := Engine.relax_rules
  relax_scope := Engine.relax_scope
  relax_optimal r ids n h := by
    obtain ⟨k, -, -, hstatus, -⟩ := Engine.relax_spec (Relaxation.prepare r ids) n
    rw [h] at hstatus
    have hmax := Status.verdict_eq_optimal.mp hstatus.symm
    rw [Engine.summaryAfter, Engine.active, (Engine.prepare_engine r ids).2,
      Summary.measure_of_rules (Engine.prepare_rules r ids), (Engine.prepare_scope r ids).1.tolerance] at hmax
    exact hmax

end SoftLinear
