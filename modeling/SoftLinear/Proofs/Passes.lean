import SoftLinear.Proofs.Coefficients
import SoftLinear.Proofs.Convergence
import SoftLinear.Proofs.Foresight

/-!
# Passes of full projections

In exact arithmetic and at factor one, a projection lands where its constraint holds.  When all constraints are hard, a
sweep of Kaczmarz is one pass of such projections over the list (`pass`), and an attempt makes passes until the list is
met or the budget is used up.  `Conflict.Passes` says what an attempt leaves in terms of its passes: the values, the
status, and the residuals, each of which is what the last pass has met.

What the passes do depends on the identifiers only: `row` tells the constraint of each, flags and pivots apart.
-/

namespace SoftLinear

open Progress

theorem Residuals.of_record {α : Type} [Scalar α] (id other : ConstraintId) (residual : α) (rs : Residuals α) :
    (rs.record id residual).of other = if other = id then residual else rs.of other := by
  induction rs with
  | nil => by_cases h : other = id <;> simp [record, of, h, eq_comm]
  | cons x rest ih =>
    obtain ⟨a, r⟩ := x
    unfold record
    split
    · by_cases h : other = id <;> simp [of, h, eq_comm]
    · split
      · rename_i h
        subst h
        by_cases h : other = id <;> simp [of, h, eq_comm]
      · rename_i hne
        by_cases ha : a = other
        · subst ha
          simp [of, Ne.symm hne]
        · simpa [of, ha] using ih

theorem Progress.classify_eq_optimal {α : Type} [Scalar α] {q : Progress α} :
    q.classify = .optimal ↔ q.summary.max < q.scope.tolerance := by
  unfold classify
  split
  · rename_i h
    simp [h]
  · rename_i h
    simp only [h, iff_false]
    split
    · simp
    · split
      · split <;> simp
      · simp

theorem Constraint.project_full {c : Constraint Rat} (hrelation : c.relation = .eq) (hnorm : nearZero ≤ c.normSquared)
    (p : Point Rat) : c.project p 1 = ⟨c.shift p (c.error p / c.normSquared), |c.error p|, true⟩ := by
  have hdeficit : c.deficit p = c.error p := by
    unfold deficit error errorAt
    rw [hrelation]
  have hmoves : c.isAtRest (c.deficit p) = false := by
    unfold isAtRest
    rw [hrelation]
    rfl
  rw [project_of_not_isAtRest 1 hmoves hnorm, hdeficit, one_mul]

variable {row : ConstraintId → Constraint Rat} {ids : List ConstraintId} {tol : Rat} {p : Point Rat}

/-- The point after projecting onto the constraints of a list, one after the other. -/
def pass (row : ConstraintId → Constraint Rat) (ids : List ConstraintId) (p : Point Rat) : Point Rat :=
  follow (ids.map fun id => (row id, 1)) p

theorem pass_cons (row : ConstraintId → Constraint Rat) (id : ConstraintId) (ids : List ConstraintId) (p : Point Rat) :
    pass row (id :: ids) p = pass row ids ((row id).project p 1).point := rfl

theorem pass_append (row : ConstraintId → Constraint Rat) (ids more : List ConstraintId) (p : Point Rat) :
    pass row (ids ++ more) p = pass row more (pass row ids p) := by
  unfold pass follow
  rw [List.map_append, List.foldl_append]

theorem size_pass (row : ConstraintId → Constraint Rat) (ids : List ConstraintId) (p : Point Rat) :
    (pass row ids p).size = p.size := by
  induction ids generalizing p with
  | nil => rfl
  | cons id ids ih => rw [pass_cons, ih, Constraint.size_project]

/-- Every constraint of a list holds at a point, within a tolerance. -/
def Met (row : ConstraintId → Constraint Rat) (ids : List ConstraintId) (tol : Rat) (p : Point Rat) : Prop :=
  ∀ id ∈ ids, |(row id).error p| < tol

/-! ## Sweeps -/

/-- The constraints of a list are, flags and pivots apart, those of a table, and hard. -/
def Tabled (row : ConstraintId → Constraint Rat) (list : List (ConstraintId × Constraint Rat)) : Prop :=
  ∀ x ∈ list, x.2.bare = (row x.1).bare ∧ (row x.1).isHard = true

variable {list : List (ConstraintId × Constraint Rat)}

theorem Tabled.isHard (h : Tabled row list) {x : ConstraintId × Constraint Rat} (hx : x ∈ list) : x.2.isHard = true :=
  (congrArg Constraint.isHard (h x hx).1 :).trans (h x hx).2

theorem Tabled.project (h : Tabled row list) {x : ConstraintId × Constraint Rat} (hx : x ∈ list) (p : Point Rat) (f : Rat) :
    x.2.project p f = (row x.1).project p f :=
  (congrArg (fun c : Constraint Rat => c.project p f) (h x hx).1 :)

theorem Tabled.met_iff (h : Tabled row list) (htol : 0 < tol) :
    (Summary.measure (list.map (·.2)) p).max < tol ↔ Met row (list.map (·.1)) tol p := by
  have herror : ∀ x ∈ list, x.2.error p = (row x.1).error p := fun x hx =>
    (congrArg (fun c : Constraint Rat => c.error p) (h x hx).1 :)
  simp only [Summary.measure_lt_iff htol, Met, List.forall_mem_map, rat_isNaN, Constraint.isSatisfied, rat_abs,
    decide_eq_true_eq, forall_const]
  exact forall₂_congr fun x hx => by rw [herror x hx]

namespace Kaczmarz

variable {k : Kaczmarz Rat}

theorem enforceHard_of_tabled (h : Tabled row list) (q : Progress Rat) : k.enforceHard (list.map (·.2)) q = q := by
  have hnone : (list.map (·.2)).any (!·.isHard) = false := by
    rw [List.any_eq_false]
    intro c hc
    obtain ⟨x, hx, rfl⟩ := List.mem_map.mp hc
    simp [h.isHard hx]
  rw [enforceHard, hnone]
  rfl

theorem visit_of_tabled (h : Tabled row list) (hfactor : k.factor = 1) {x : ConstraintId × Constraint Rat} (hx : x ∈ list)
    (q : Progress Rat) : (k.visit q x).point = ((row x.1).project q.point 1).point ∧
      (k.visit q x).residuals = q.residuals.record x.1 ((row x.1).project q.point 1).residual := by
  unfold visit
  simp only [h.isHard hx, if_true, hfactor, h.project hx, and_self]

theorem foldl_visit_point (h : Tabled row list) (hfactor : k.factor = 1) (q : Progress Rat) :
    (list.foldl k.visit q).point = pass row (list.map (·.1)) q.point := by
  induction list generalizing q with
  | nil => rfl
  | cons x list ih =>
    rw [List.foldl_cons, ih (fun y hy => h y (List.mem_cons_of_mem x hy)),
      (visit_of_tabled h hfactor List.mem_cons_self q).1]
    rfl

theorem foldl_visit_skips {q : Progress Rat} {id : ConstraintId} (hid : id ∉ list.map (·.1)) :
    (list.foldl k.visit q).residuals.of id = q.residuals.of id := by
  induction list generalizing q with
  | nil => rfl
  | cons x list ih =>
    simp only [List.map_cons, List.mem_cons, not_or] at hid
    rw [List.foldl_cons, ih hid.2]
    exact (Residuals.of_record _ _ _ _).trans (if_neg hid.1)

/-- The residual of a constraint that the pass does not come back to is what the pass has met. -/
theorem foldl_visit_residuals (h : Tabled row list) (hfactor : k.factor = 1) (q : Progress Rat)
    {before after : List ConstraintId} {id : ConstraintId} (hsplit : list.map (·.1) = before ++ id :: after)
    (hid : id ∉ after) :
    (list.foldl k.visit q).residuals.of id = ((row id).project (pass row before q.point) 1).residual := by
  induction list generalizing q before with
  | nil => simp at hsplit
  | cons x list ih =>
    have hlist : Tabled row list := fun y hy => h y (List.mem_cons_of_mem x hy)
    obtain ⟨hpoint, hresiduals⟩ := visit_of_tabled h hfactor List.mem_cons_self q
    rw [List.foldl_cons]
    cases before with
    | cons first before =>
      obtain ⟨rfl, hrest⟩ := List.cons.inj hsplit
      rw [ih hlist _ hrest, hpoint]
      rfl
    | nil =>
      obtain ⟨rfl, rfl⟩ := List.cons.inj hsplit
      rw [foldl_visit_skips hid, hresiduals, Residuals.of_record, if_pos rfl]
      rfl

theorem sweep_tabled (h : Tabled row list) (hfactor : k.factor = 1) (budget : Nat) (q : Progress Rat) :
    (k.sweep list budget q).point = pass row (list.map (·.1)) q.point ∧
      (k.sweep list budget q).residuals = (list.foldl k.visit q).residuals := by
  have hmoves : k.enforceHard (list.map (·.2)) (list.foldl k.visit q) = list.foldl k.visit q := enforceHard_of_tabled h _
  rw [← foldl_visit_point h hfactor, ← hmoves]
  exact ⟨rfl, rfl⟩

theorem iterate_sweep_point (h : Tabled row list) (hfactor : k.factor = 1) (budget : Nat) (q : Progress Rat) (j : Nat) :
    ((k.sweep list budget)^[j] q).point = (pass row (list.map (·.1)))^[j] q.point := by
  induction j with
  | zero => rfl
  | succ j ih =>
    rw [Function.iterate_succ_apply', Function.iterate_succ_apply', (sweep_tabled h hfactor budget _).1, ih]

end Kaczmarz

/-! ## Attempts -/

namespace Conflict

/-- An attempt has made a number of passes over a list, from a point to another and under a budget. -/
structure Passes (row : ConstraintId → Constraint Rat) (ids : List ConstraintId) (tol : Rat) (p : Point Rat)
    (budget count : Nat) (q : Point Rat) (outcome : Outcome Rat) : Prop where
  within : count ≤ budget
  unmet : ∀ j < count, ¬ Met row ids tol ((pass row ids)^[j] p)
  reason : count = budget ∨ Met row ids tol ((pass row ids)^[count] p)
  values : q = (pass row ids)^[count] p
  status : outcome.status = .optimal ↔ Met row ids tol ((pass row ids)^[count] p)
  residuals : ∀ j, count = j + 1 → ∀ before id after, ids = before ++ id :: after → id ∉ after →
    outcome.residuals.of id = ((row id).project (pass row before ((pass row ids)^[j] p)) 1).residual

/-- **A run of Kaczmarz at factor one over hard constraints is a number of passes.** -/
theorem relax_passes {r : Run Rat (Kaczmarz Rat)} (hfactor : r.engine.factor = 1) (htol : 0 < r.scope.tolerance)
    (hrows : Tabled row (r.system.live r.engine.prepared)) (budget : Nat) :
    ∃ count, Passes row ((r.system.live r.engine.prepared).map (·.1)) r.scope.tolerance r.system.values budget count
      (Relaxation.relax r budget).1.system.values (Relaxation.relax r budget).2 := by
  obtain ⟨count, hcount, he, -⟩ := Kaczmarz.relax_halts r budget
  set list := r.system.live r.engine.prepared
  set start := Progress.start (list.map (·.2)) r.system r.engine.factor r.scope
  have hpoint := Kaczmarz.iterate_sweep_point hrows hfactor budget start
  have htracked := (r.engine.sweep_isSweep list budget).tracked_iterate
    (start_tracked (list.map (·.2)) r.system r.engine.factor r.scope)
  -- whether there is another sweep is decided by the point between the two
  have hmet : ∀ j, ((r.engine.sweep list budget)^[j] start).summary.max <
      ((r.engine.sweep list budget)^[j] start).scope.tolerance ↔
        Met row (list.map (·.1)) r.scope.tolerance ((pass row (list.map (·.1)))^[j] r.system.values) := by
    intro j
    rw [(htracked j).summary, (htracked j).tolerance, hpoint, ← hrows.met_iff htol]
    rfl
  refine ⟨count, hcount.within, ?_, ?_, ?_, ?_, ?_⟩
  · intro j hj
    rw [← hmet, not_lt]
    exact hcount.unmet j hj
  · rcases hcount.reason with hend | hend | ⟨j, -, hend⟩
    · exact .inl hend
    · rw [← hmet]
      exact .inr (not_le.mp hend)
    · cases hend
  · show (r.system.storeValues (iterate _ _ _ start).point).values = _
    rw [he, ← show start.point = r.system.values from rfl, ← hpoint, System.values_storeValues]
    exact (htracked count).size.trans r.system.size_values
  · rw [← hmet, ← classify_eq_optimal, ← he]
    rfl
  · rintro j rfl before id after hsplit hid
    show (iterate _ _ _ start).residuals.of id = _
    rw [he, Function.iterate_succ_apply', (Kaczmarz.sweep_tabled hrows hfactor budget _).2,
      Kaczmarz.foldl_visit_residuals hrows hfactor _ hsplit hid, hpoint]
    rfl

variable {γ : Type} [Generator γ] {r : Run Rat (Engine Rat γ)} {sorted : List ConstraintId}

/-- A relaxation is Kaczmarz at factor one. -/
def Projects (e : Engine Rat γ) : Prop := ∃ k : Kaczmarz Rat, e = .kaczmarz k ∧ k.factor = 1

theorem attempt_projects (h : Projects r.engine) (budget : Nat) : Projects (attempt r sorted budget).1.engine := by
  obtain ⟨e, s, scope⟩ := r
  obtain ⟨k, rfl, hfactor⟩ := h
  exact ⟨_, rfl, hfactor⟩

theorem attempt_passes (h : Projects r.engine) (htol : 0 < r.scope.tolerance)
    (hrows : Tabled row (r.system.live sorted)) (budget : Nat) :
    ∃ count, Passes row (r.system.liveIds sorted) r.scope.tolerance r.system.values budget count
      (attempt r sorted budget).1.system.values (attempt r sorted budget).2 := by
  obtain ⟨e, s, scope⟩ := r
  obtain ⟨k, rfl, hfactor⟩ := h
  have hlist : s.live (s.liveIds sorted) = s.live sorted := s.live_liveIds sorted
  rw [← hlist] at hrows
  have hrelax := relax_passes (r := ⟨{ k with prepared := s.liveIds sorted }, s, scope⟩) hfactor htol hrows budget
  rw [hlist] at hrelax
  exact hrelax

end Conflict

end SoftLinear
