import SoftLinear.Proofs.Engines
import SoftLinear.Proofs.History
import SoftLinear.Random
import SoftLinear.Solver

/-!
# The judgement of a solve

A relaxation judges itself by the constraints of its own prepared list at its own point; a system measures its enabled
constraints at its current values.  After a solve the two agree, whatever history of edits and solves led there.

What makes them agree is that the solver never works on a stale list: as long as it believes its relaxation to be
prepared for a list, the relaxation is (`DirectSolver.Coherent`).  A new constraint makes the solver forget the list, a
removed one is taken out on both sides, and a changed flag shows when the lists are compared.
-/

namespace SoftLinear

variable {α γ : Type} [Scalar α] [Generator γ]

/-! ## Budgets -/

namespace Engine

omit [Scalar α] [Generator γ] in
/-- The same relaxation under another budget. -/
def withBudget (n : Nat) : Engine α γ → Engine α γ
  | kaczmarz k => kaczmarz { k with budget := n }
  | gaussSeidel g => gaussSeidel { g with budget := n }
  | forceDirected f => forceDirected { f with budget := n }

theorem prepare_withBudget (r : Run α (Engine α γ)) (ids : List ConstraintId) (n : Nat) :
    Relaxation.prepare (r.map (withBudget n)) ids = (Relaxation.prepare r ids).map (withBudget n) := by
  obtain ⟨e, s, scope⟩ := r
  cases e <;> rfl

theorem relax_withBudget (r : Run α (Engine α γ)) (n k : Nat) :
    (Relaxation.relax (r.map (withBudget n)) k).1.system = (Relaxation.relax r k).1.system := by
  obtain ⟨e, s, scope⟩ := r
  cases e <;> rfl

theorem name_withBudget (e : Engine α γ) (n : Nat) : Relaxation.name (e.withBudget n) = Relaxation.name e := by
  cases e <;> rfl

theorem budget_withBudget (e : Engine α γ) (n : Nat) : Relaxation.budget (e.withBudget n) = n := by
  cases e <;> rfl

end Engine

/-! ## The run of a solve -/

theorem System.WellFormed.tolerance_le_maxError [Scalar.Ordered α] {s : System α} (h : s.WellFormed)
    (hs : ¬ s.maxError < s.tolerance) : s.tolerance ≤ s.maxError := by
  by_contra hle
  have htol : Scalar.isNaN s.tolerance = false := (Scalar.Ordered.defined_of_lt h.tolerance).2
  have hmax : Scalar.isNaN s.maxError = false := Scalar.foldl_larger_defined _ _ Scalar.Ordered.zero_defined
  exact hs (Scalar.Ordered.lt_of_not_le htol hmax hle)

namespace DirectSolver

/-- The run that a solve relaxes. -/
def task (d : DirectSolver (Engine α γ)) (s : System α) : Run α (Engine α γ) :=
  let t := s.seed d.reset
  let r := d.ready ⟨d.engine, t, { tolerance := t.tolerance }⟩ t.enabledIds
  let started : Event α := .solveStarted "Relaxation" none (Relaxation.name r.engine) r.system.order.length
    r.system.attached.length
  { r with scope := r.scope.report started }

/-- The solver of an engine, in step with what it was made of: it has the same kind and budget, and the list that the
solver believes to be prepared is prepared. -/
structure Coherent (e : Engine α γ) (d : DirectSolver (Engine α γ)) : Prop where
  alike : e.Alike d.engine
  prepared : ∀ l, d.prepared = some l → d.engine.prepared = l

variable {e : Engine α γ} {d : DirectSolver (Engine α γ)}

theorem ready_rules (d : DirectSolver (Engine α γ)) (r : Run α (Engine α γ)) (enabled : List ConstraintId) :
    r.system.SameRules (d.ready r enabled).system := by
  unfold ready
  split
  · exact .refl _
  · exact Engine.prepare_rules r enabled

theorem task_rules (d : DirectSolver (Engine α γ)) (s : System α) : s.SameRules (d.task s).system :=
  (s.seed_sameRules d.reset).trans
    (d.ready_rules ⟨d.engine, s.seed d.reset, { tolerance := (s.seed d.reset).tolerance }⟩ (s.seed d.reset).enabledIds)

theorem ready_spec (h : Coherent e d) (r : Run α (Engine α γ)) (hr : r.engine = d.engine)
    (enabled : List ConstraintId) :
    r.scope.Extends (d.ready r enabled).scope ∧
      sweepReports (d.ready r enabled).scope.log = sweepReports r.scope.log ∧
      e.Alike (d.ready r enabled).engine ∧ (d.ready r enabled).engine.prepared = enabled := by
  unfold ready
  split
  · rename_i hl
    exact ⟨.refl _, rfl, hr ▸ h.alike, hr ▸ h.prepared _ hl⟩
  · have hs := Engine.prepare_scope r enabled
    have he := Engine.prepare_engine r enabled
    exact ⟨hs.1, hs.2, h.alike.trans (hr ▸ he.1), he.2⟩

/-- **What a solve works on**: its own tolerance, the list of the enabled constraints, and a log without sweeps. -/
theorem task_spec (h : Coherent e d) (s : System α) :
    (d.task s).scope.tolerance = s.tolerance ∧ sweepReports (d.task s).scope.log = [] ∧ e.Alike (d.task s).engine ∧
      (d.task s).engine.prepared = s.enabledIds := by
  have hseed := s.seed_sameRules d.reset
  obtain ⟨hscope, hlog, halike, hprepared⟩ := ready_spec h
    ⟨d.engine, s.seed d.reset, { tolerance := (s.seed d.reset).tolerance }⟩ rfl (s.seed d.reset).enabledIds
  refine ⟨hscope.tolerance.trans hseed.tolerance, ?_, halike, hprepared.trans ?_⟩
  · exact (sweepReports_push _ _).trans (by rw [hlog]; rfl)
  · exact hseed.enabledIds_eq

theorem task_withBudget (d : DirectSolver (Engine α γ)) (s : System α) (n : Nat) :
    task { d with engine := d.engine.withBudget n } s = (d.task s).map (Engine.withBudget n) := by
  unfold task ready
  simp only
  split
  · simp only [Run.map, Engine.name_withBudget]
  · have hp := Engine.prepare_withBudget ⟨d.engine, s.seed d.reset, { tolerance := (s.seed d.reset).tolerance }⟩
      (s.seed d.reset).enabledIds n
    simp only [Run.map] at hp
    rw [hp]
    simp only [Run.map, Engine.name_withBudget]

/-- The system that a relaxation of its enabled constraints leaves measures what the relaxation has measured. -/
theorem measures_of_relax {r : Run α (Engine α γ)} (h : r.engine.prepared = r.system.enabledIds) (n : Nat) :
    (Relaxation.relax r n).1.system.maxError = (Engine.summaryAfter r n).max ∧
      (Relaxation.relax r n).1.system.hardError = (Engine.summaryAfter r n).hard := by
  have hrules := Engine.relax_rules r n
  have hactive : Engine.active r = (r.system.live r.system.order).map (·.2) := by
    rw [Engine.active, h, System.enabledIds, System.live_liveIds]
  have hsum : Engine.summaryAfter r n = Summary.measure (Relaxation.relax r n).1.system.enabledConstraints
      (Relaxation.relax r n).1.system.values := by
    rw [Engine.summaryAfter, hactive, ← Summary.measure_of_rules hrules, System.enabledConstraints, hrules.order]
  rw [hsum, Summary.measure_max, Summary.measure_hard]
  exact ⟨rfl, rfl⟩

/-! ## Coherence along a history -/

theorem solve_coherent (h : Coherent e d) (s : System α) : Coherent e (d.solve s).solver := by
  obtain ⟨-, -, halike, hprepared⟩ := task_spec h s
  have hrelax := Engine.relax_engine (d.task s) (Relaxation.budget (d.task s).engine)
  refine ⟨halike.trans hrelax.1, ?_⟩
  rintro l ⟨⟩
  exact (hrelax.2.trans hprepared).trans (s.seed_sameRules d.reset).enabledIds_eq.symm

theorem removed_coherent (h : Coherent e d) (s : System α) (id : ConstraintId) : Coherent e (d.removed s id) := by
  obtain ⟨halike, hprepared, husable⟩ := Engine.withdraw_engine d.engine s id
  refine ⟨h.alike.trans halike, ?_⟩
  intro l hl
  simp only [removed, husable, if_true] at hl
  obtain ⟨l', hl', rfl⟩ := Option.map_eq_some_iff.mp hl
  exact hprepared.trans (by rw [h.prepared l' hl'])

/-- No call of a solver sets it apart from the relaxation it was made of.  It does not listen to flags: it compares lists
when it solves. -/
theorem keeps_coherent : Solver.Keeps α (Coherent (α := α) e) where
  solve _ s h := solve_coherent h s
  added _ _ _ h := ⟨h.alike, fun _ hl => by cases hl⟩
  enabled _ _ _ _ h := h
  removed _ s id _ h := removed_coherent h s id

instance : Solver.Lawful α (DirectSolver (Engine α γ)) where
  outline d s _ := ((d.task_rules s).trans (Engine.relax_rules (d.task s) _)).toSameOutline

end DirectSolver

namespace Model

/-- The solver of the model is in step with the relaxation it was made of. -/
def IsDriven (e : Engine α γ) (m : Model α (DirectSolver (Engine α γ))) : Prop :=
  ∃ d, m.solver = some d ∧ d.Coherent e

variable {e : Engine α γ} {m : Model α (DirectSolver (Engine α γ))}

theorem apply_isDriven (m : Model α (DirectSolver (Engine α γ))) (edit : Edit α) (h : m.IsDriven e) :
    (m.apply edit).IsDriven e :=
  apply_keeps DirectSolver.keeps_coherent h edit

theorem replay_isDriven (i : Nat) (e : Engine α γ) (reset : Bool) (edits : List (Edit α)) :
    ((Model.new i (some (DirectSolver.new e reset))).replay edits).IsDriven e :=
  replay_induction (P := fun m => m.IsDriven e) apply_isDriven
    ⟨_, rfl, ⟨rfl, rfl⟩, fun l hl => by cases hl⟩ edits

/-! ## What the status says -/

omit [Scalar α] [Generator γ] in
theorem mem_reports (f : Nat → α) (k n : Nat) (x : α) :
    (n, x) ∈ (List.range k).map (fun j => (j + 1, f (j + 1))) ↔ 1 ≤ n ∧ n ≤ k ∧ f n = x := by
  simp only [List.mem_map, List.mem_range, Prod.mk.injEq]
  constructor
  · rintro ⟨j, hj, rfl, rfl⟩
    exact ⟨by omega, by omega, rfl⟩
  · rintro ⟨h1, hk, rfl⟩
    obtain ⟨j, rfl⟩ := Nat.exists_eq_add_of_le' h1
    exact ⟨j, by omega, rfl, rfl⟩

/-- The same model with another budget for its solver. -/
def limit (m : Model α (DirectSolver (Engine α γ))) (n : Nat) : Model α (DirectSolver (Engine α γ)) :=
  { m with solver := m.solver.map fun d => { d with engine := d.engine.withBudget n } }

/-- The next solve is the relaxation of a run over the enabled constraints, and so is a solve under another budget. -/
theorem IsDriven.exists_run (h : m.IsDriven e) : ∃ r : Run α (Engine α γ),
    r.engine.prepared = r.system.enabledIds ∧ r.scope.tolerance = r.system.tolerance ∧ sweepReports r.scope.log = [] ∧
      e.Alike r.engine ∧
      m.solve.1.system = (Relaxation.relax r e.budget).1.system ∧
      m.solve.2.1 = (Relaxation.relax r e.budget).2.status ∧
      sweepReports m.solve.2.2 = sweepReports (Relaxation.relax r e.budget).1.scope.log ∧
      ∀ n, (m.limit n).solve.1.system = (Relaxation.relax r n).1.system := by
  obtain ⟨d, hd, hc⟩ := h
  obtain ⟨htolerance, hlog, halike, hprepared⟩ := DirectSolver.task_spec hc m.system
  have hrules := d.task_rules m.system
  have hbudget : Relaxation.budget (d.task m.system).engine = e.budget := halike.budget
  have hsolve : m.solve.1.system = (Relaxation.relax (d.task m.system) e.budget).1.system := by
    rw [← hbudget, solve_of_solver hd]
    rfl
  refine ⟨d.task m.system, hprepared.trans hrules.enabledIds_eq.symm, htolerance.trans hrules.tolerance.symm, hlog,
    halike, hsolve, ?_, ?_, ?_⟩
  · rw [← hbudget, solve_of_solver hd]
    rfl
  · rw [← hbudget, solve_of_solver hd]
    exact (sweepReports_push _ _).trans (List.append_nil _)
  · intro n
    rw [limit, hd]
    show (Relaxation.relax (DirectSolver.task { d with engine := d.engine.withBudget n } m.system)
      (Relaxation.budget (DirectSolver.task { d with engine := d.engine.withBudget n } m.system).engine)).1.system = _
    rw [DirectSolver.task_withBudget, Engine.relax_withBudget]
    exact congrArg (fun k => (Relaxation.relax (d.task m.system) k).1.system) (Engine.budget_withBudget _ n)

/-- **How a solve is judged**, in terms of the systems that it leaves under its own and under smaller budgets. -/
theorem IsDriven.solve_spec (h : m.IsDriven e) : ∃ k ≤ e.budget,
    sweepReports m.solve.2.2 =
      (List.range k).map (fun j => (j + 1, (m.limit (j + 1)).solve.1.system.hardError)) ∧
    m.solve.2.1 =
      .verdict (m.solve.1.system.maxError < m.solve.1.system.tolerance)
        (m.solve.1.system.hardError < m.solve.1.system.tolerance)
        (max 1 (e.budget / 2) ≤ k ∧
          m.solve.1.system.hardError < (m.limit (max 1 (e.budget / 2))).solve.1.system.hardError * convergingShare) ∧
    (k = e.budget ∨ ¬ m.solve.1.system.tolerance ≤ m.solve.1.system.maxError ∨
      e.settles = true ∧ m.solve.1.system.hardError < m.solve.1.system.tolerance) := by
  obtain ⟨r, hprepared, hscope, hlog, halike, hsystem, hstatus, hreports, hlimit⟩ := h.exists_run
  obtain ⟨k, hk, hsweeps, hjudged, hstop⟩ := Engine.relax_spec r e.budget
  have hmax : (Engine.summaryAfter r e.budget).max = m.solve.1.system.maxError := by
    rw [hsystem, (DirectSolver.measures_of_relax hprepared _).1]
  have hhard : (Engine.summaryAfter r e.budget).hard = m.solve.1.system.hardError := by
    rw [hsystem, (DirectSolver.measures_of_relax hprepared _).2]
  have hcut : ∀ n, (Engine.summaryAfter r n).hard = (m.limit n).solve.1.system.hardError := by
    intro n
    rw [hlimit, (DirectSolver.measures_of_relax hprepared _).2]
  have htol : r.scope.tolerance = m.solve.1.system.tolerance := by
    rw [hscope, hsystem, (Engine.relax_rules r e.budget).tolerance]
  rw [htol, hmax, hhard] at hjudged hstop
  rw [halike.settles] at hstop
  simp only [hcut] at hjudged hsweeps
  exact ⟨k, hk, hreports.trans (by rw [hsweeps, hlog, List.nil_append]), hstatus.trans hjudged, hstop⟩

/-- **The status agrees with the system.**  After any history, the status of a solve is decided by what the system then
measures: optimal when all residuals are below the tolerance, else suboptimal when the hard ones are, else suboptimal
when they have more than halved since the sweep at half of the budget, else infeasible.  Every sweep is reported with the
hard residual that the solve would leave if it were cut off there, and a solve is cut short only if it ends optimally or,
under forces, with the hard constraints below the tolerance. -/
theorem solve_status_spec [Scalar.Ordered α] (i : Nat) (e : Engine α γ) (reset : Bool) (edits : List (Edit α)) :
    let m := (Model.new i (some (DirectSolver.new e reset))).replay edits
    let s := m.solve.1.system
    let status := m.solve.2.1
    let reports := sweepReports m.solve.2.2
    (reports = (List.range reports.length).map fun j => (j + 1, (m.limit (j + 1)).solve.1.system.hardError)) ∧
    (status = .optimal ↔ s.maxError < s.tolerance) ∧
    (¬ s.maxError < s.tolerance → s.hardError < s.tolerance → status = .suboptimal) ∧
    (¬ s.maxError < s.tolerance → ¬ s.hardError < s.tolerance →
      (status = .suboptimal ↔ 0 < reports.length ∧
        ∃ mid, (max 1 (e.budget / 2), mid) ∈ reports ∧ s.hardError < mid * 0.5) ∧
      (status = .suboptimal ∨ status = .infeasible)) ∧
    (status ≠ .optimal → e.settles = false → reports.length = e.budget) ∧
    (status = .infeasible → reports.length = e.budget) := by
  intro m s status reports
  have hm : m.system.WellFormed := replay_wellFormed i _ edits
  have hwf : s.WellFormed := (solve_sameOutline hm).wellFormed hm
  have hdriven : m.IsDriven e := replay_isDriven i e reset edits
  obtain ⟨k, hk, hreports, hstatus, hstop⟩ := hdriven.solve_spec
  change reports = _ at hreports
  change status = _ at hstatus
  have hlength : reports.length = k := by simp [hreports]
  have hmid := mem_reports (fun n => (m.limit n).solve.1.system.hardError) k (max 1 (e.budget / 2))
  rw [← hreports] at hmid
  -- a solve that misses the tolerance both ways was not cut short
  have hfull : ¬ s.maxError < s.tolerance → ¬ s.hardError < s.tolerance → k = e.budget := by
    intro hmax hhard
    rcases hstop with hn | hend | ⟨-, hend⟩
    · exact hn
    · exact absurd (hwf.tolerance_le_maxError hmax) hend
    · exact absurd hend hhard
  rw [hlength, hstatus]
  refine ⟨hreports, Status.verdict_eq_optimal, ?_, ?_, ?_, ?_⟩
  · intro hmax hhard
    exact Status.verdict_eq_suboptimal.mpr ⟨hmax, .inl hhard⟩
  · intro hmax hhard
    have hn := hfull hmax hhard
    rw [Status.verdict_eq_suboptimal, Status.verdict_eq_infeasible]
    -- what decides is whether the hard residual has more than halved since the middle of the budget
    by_cases hshrinks : max 1 (e.budget / 2) ≤ k ∧
        s.hardError < (m.limit (max 1 (e.budget / 2))).solve.1.system.hardError * convergingShare
    · refine ⟨⟨fun _ => ?_, fun _ => ⟨hmax, .inr hshrinks⟩⟩, .inl ⟨hmax, .inr hshrinks⟩⟩
      exact ⟨by omega, _, (hmid _).mpr ⟨by omega, hshrinks.1, rfl⟩, hshrinks.2⟩
    · refine ⟨⟨fun h => absurd h.2 (not_or.mpr ⟨hhard, hshrinks⟩), ?_⟩, .inr ⟨hmax, hhard, hshrinks⟩⟩
      rintro ⟨-, mid, hmem, hlt⟩
      obtain ⟨-, hle, rfl⟩ := (hmid mid).mp hmem
      exact absurd ⟨hle, hlt⟩ hshrinks
  · -- only forces settle, and only an optimal solve ends early otherwise
    intro hno hsettles
    rcases hstop with hn | hend | ⟨hend, -⟩
    · exact hn
    · exact absurd (hwf.tolerance_le_maxError fun hmax => hno (Status.verdict_eq_optimal.mpr hmax)) hend
    · rw [hsettles] at hend
      cases hend
  · intro hinf
    obtain ⟨hmax, hhard, -⟩ := Status.verdict_eq_infeasible.mp hinf
    exact hfull hmax hhard

/-- Two hard equalities over binary64 that contradict each other: the solve uses its whole budget and is infeasible. -/
theorem solve_status_of_contradiction :
    let sum : List (Term Float) := [⟨1, ⟨0, 0⟩⟩]
    let m : Model Float (DirectSolver (Engine Float KeyStream)) :=
      (Model.new 0 (some (DirectSolver.new (.kaczmarz ⟨2, 1, 1, []⟩) false))).replay
        [.addVariable none, .add ⟨sum, .eq, .fixed 4, 1, true, none, none⟩,
          .add ⟨sum, .eq, .fixed 6, 1, true, none, none⟩]
    m.solve.2.1 = .infeasible ∧ (sweepReports m.solve.2.2).length = 2 := by
  intro sum m
  have hstatus : m.solve.2.1 = .infeasible := by decide +kernel
  obtain ⟨-, -, -, -, -, hbudget⟩ := solve_status_spec 0 (.kaczmarz ⟨2, 1, 1, []⟩ : Engine Float KeyStream) false
    [.addVariable none, .add ⟨sum, .eq, .fixed 4, 1, true, none, none⟩, .add ⟨sum, .eq, .fixed 6, 1, true, none, none⟩]
  exact ⟨hstatus, hbudget hstatus⟩

end Model

end SoftLinear
