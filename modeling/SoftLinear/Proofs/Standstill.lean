import SoftLinear.Proofs.Idempotence

/-!
# Standing still

A solve that has ended optimally can be repeated for nothing.  The second solve of a direct solver finds its relaxation
prepared for the list of the enabled constraints, measures them at the values that the first one has left, and stops before
its first sweep: what ended the first run keeps the second from starting (`Engine.state_of_met`).  All it leaves behind is
the count of one relaxation.
-/

namespace SoftLinear

variable {α γ : Type} [Scalar α]

omit [Scalar α] in
theorem System.storeValues_values (s : System α) : s.storeValues s.values = s := by
  have hslots : (s.storeValues s.values).slots = s.slots := by
    apply Array.ext
    · simp [System.storeValues]
    · intro i h1 h2
      simp [System.storeValues, System.values, h2]
  exact congrArg (fun slots => { s with slots := slots }) hslots

variable [Generator γ]

namespace Engine

omit [Scalar α] [Generator γ] in
/-- The relaxation once the statistics count its last selection of pivots. -/
def counted : Engine α γ → Engine α γ
  | gaussSeidel g => gaussSeidel { g with pendingSelection := none }
  | e => e

omit [Scalar α] [Generator γ] in
@[simp] theorem counted_counted (e : Engine α γ) : e.counted.counted = e.counted := by cases e <;> rfl

theorem engine_relax_eq (r : Run α (Engine α γ)) (n : Nat) : (Relaxation.relax r n).1.engine = r.engine.counted := by
  obtain ⟨e, s, scope⟩ := r
  cases e <;> rfl

omit [Generator γ] in
theorem scope_base {r : Run α (Engine α γ)} (h : r.engine.counted = r.engine) :
    (course r).base.scope = r.scope.tally Stats.recordRelaxCall := by
  obtain ⟨e, s, scope⟩ := r
  cases e with
  | kaczmarz k => rfl
  | gaussSeidel g =>
    have hnone : g.pendingSelection = none := by
      simp only [counted, gaussSeidel.injEq] at h
      rw [← h]
    unfold course
    simp only [hnone]
    rfl
  | forceDirected f => rfl

theorem relax_idle [Scalar.Lawful α] {r : Run α (Engine α γ)} (hcounted : r.engine.counted = r.engine)
    (h : (Summary.measure (active r) r.system.values).max < r.scope.tolerance) (n : Nat) :
    ∃ e : Event α, e.sweepReport? = none ∧
      (Relaxation.relax r n).1 = { r with scope := (r.scope.tally Stats.recordRelaxCall).report e } := by
  obtain ⟨hsystem, -, e, he, hscope⟩ := relax_run r n
  have hengine := engine_relax_eq r n
  rw [state_of_met (Scalar.Lawful.not_le_of_lt h)] at hsystem hscope
  rw [(course_base r).1, System.storeValues_values] at hsystem
  rw [scope_base hcounted] at hscope
  rw [hcounted] at hengine
  exact ⟨e, he, Run.mk.injEq .. ▸ ⟨hengine, hsystem, hscope⟩⟩

end Engine

namespace DirectSolver

variable {d : DirectSolver (Engine α γ)} {s : System α}

theorem task_tolerance (d : DirectSolver (Engine α γ)) (s : System α) : (d.task s).scope.tolerance = s.tolerance := by
  unfold task ready
  simp only
  split
  · exact (s.seed_sameRules d.reset).tolerance
  · exact (Engine.prepare_scope _ _).1.tolerance.trans (s.seed_sameRules d.reset).tolerance

/-- **What the second solve works on** is what the first one has left: nothing is seeded and nothing prepared. -/
theorem task_again (hreset : d.reset = false) (hdefined : ∀ a ∈ (d.solve s).system.values, Scalar.isNaN a = false) :
    let once := d.solve s
    ∃ e : Event α, e.sweepReport? = none ∧
      once.solver.task once.system =
        ⟨once.solver.engine, once.system, Scope.report { tolerance := once.system.tolerance } e⟩ := by
  intro once
  have hseed : once.system.seed once.solver.reset = once.system := by
    rw [System.seed, show once.solver.reset = false from hreset]
    exact System.fillUnset_of_defined hdefined
  have hrules : s.SameRules once.system := (d.task_rules s).trans (Engine.relax_rules _ _)
  have hprepared : once.solver.prepared = some once.system.enabledIds := by
    show some (s.seed d.reset).enabledIds = _
    rw [(s.seed_sameRules d.reset).enabledIds_eq, hrules.enabledIds_eq]
  unfold task ready
  simp only [hseed, hprepared, if_true]
  exact ⟨_, rfl, rfl⟩

theorem met_again (hreset : d.reset = false) (hdefined : ∀ a ∈ (d.solve s).system.values, Scalar.isNaN a = false)
    (hoptimal : (d.solve s).status = .optimal) :
    let again := (d.solve s).solver.task (d.solve s).system
    (Summary.measure (Engine.active again) again.system.values).max < again.scope.tolerance := by
  intro again
  obtain ⟨e, -, hagain⟩ := task_again hreset hdefined
  obtain ⟨k, -, -, hstatus, -⟩ := Engine.relax_spec (d.task s) (Relaxation.budget (d.task s).engine)
  have hmax := Status.verdict_eq_optimal.mp (hstatus.symm.trans hoptimal)
  have hrules := Engine.relax_rules (d.task s) (Relaxation.budget (d.task s).engine)
  have hprepared : (d.solve s).solver.engine.prepared = (d.task s).engine.prepared :=
    (Engine.relax_engine (d.task s) (Relaxation.budget (d.task s).engine)).2
  have htol : (d.solve s).system.tolerance = s.tolerance := hrules.tolerance.trans (d.task_rules s).tolerance
  show (Summary.measure (Engine.active again) again.system.values).max < again.scope.tolerance
  rw [show again = _ from hagain, Engine.active]
  simp only [Scope.report]
  rw [hprepared, htol, ← d.task_tolerance s]
  rw [Engine.summaryAfter, Engine.active, ← Summary.measure_of_rules hrules] at hmax
  exact hmax

theorem solve_eq (d : DirectSolver (Engine α γ)) (s : System α) :
    let x := Relaxation.relax (d.task s) (Relaxation.budget (d.task s).engine)
    d.solve s =
      { status := x.2.status
        solver := { d with
          engine := x.1.engine, prepared := some (s.seed d.reset).enabledIds, stats := x.1.scope.stats }
        system := x.1.system
        log := x.1.scope.log.push
          (.relaxationSolved "Relaxation" x.2.status x.2.sweeps x.2.maxError x.1.scope.stats.projections) } := rfl

/-- A solve after an optimal one changes nothing but the statistics. -/
theorem solve_again [Scalar.Lawful α] (hreset : d.reset = false)
    (hdefined : ∀ a ∈ (d.solve s).system.values, Scalar.isNaN a = false) (hoptimal : (d.solve s).status = .optimal) :
    let once := d.solve s
    let again := once.solver.solve once.system
    again.status = .optimal ∧ again.system = once.system ∧ sweepReports again.log = [] ∧
      again.solver = { once.solver with stats := { relaxCalls := 1 } } := by
  intro once again
  have hmet := met_again hreset hdefined hoptimal
  obtain ⟨started, hstarted, htask⟩ := task_again hreset hdefined
  have hprepared : (once.system.seed once.solver.reset).enabledIds = (s.seed d.reset).enabledIds := by
    have hrules : s.SameRules once.system := (d.task_rules s).trans (Engine.relax_rules _ _)
    rw [(once.system.seed_sameRules _).enabledIds_eq, (s.seed_sameRules _).enabledIds_eq, hrules.enabledIds_eq]
  have hcounted : once.solver.engine.counted = once.solver.engine := by
    rw [show once.solver.engine = (d.task s).engine.counted from Engine.engine_relax_eq _ _, Engine.counted_counted]
  have hstatus := (Engine.relax_rest hmet (Relaxation.budget (once.solver.task once.system).engine)).1
  obtain ⟨ended, hended, hidle⟩ := Engine.relax_idle (by rw [htask]; exact hcounted) hmet
    (Relaxation.budget (once.solver.task once.system).engine)
  have hagain : again = _ := once.solver.solve_eq once.system
  -- the second solve adopts the same list and relaxes nothing
  rw [hidle, hstatus, hprepared, htask] at hagain
  rw [hagain]
  refine ⟨rfl, rfl, ?_, rfl⟩
  show sweepReports (((#[].push started).push ended).push _) = []
  rw [sweepReports_push, sweepReports_push, sweepReports_push, hstarted, hended]
  rfl

end DirectSolver

namespace Model

/-- **A solve after an optimal one changes nothing.**  In whatever state a history has left a model: if its solver is a
direct one without reset, and a solve ends optimally and leaves no value undefined, then another solve ends optimally,
makes no sweep and no projection, and leaves the whole system as it is; the solver has counted one relaxation that found
nothing to do. -/
theorem solve_stands_still [Scalar.Lawful α] (m : Model α (AnySolver (Engine α γ))) (d : DirectSolver (Engine α γ))
    (hd : m.solver = some (.direct d)) (hreset : d.reset = false) (hoptimal : m.solve.2.1 = .optimal)
    (hdefined : ∀ a ∈ m.solve.1.system.values, Scalar.isNaN a = false) :
    let once := m.solve.1
    let again := once.solve
    again.2.1 = .optimal ∧ sweepReports again.2.2 = [] ∧ again.1.system = once.system ∧
      again.1.lastStatus = once.lastStatus ∧
      ∃ d', once.solver = some (.direct d') ∧
        again.1.solver = some (.direct { d' with stats := { relaxCalls := 1, sweeps := 0, projections := 0 } }) := by
  intro once again
  have hsolve := solve_of_solver hd
  have hsystem : once.system = (d.solve m.system).system := congrArg (fun x => x.1.system) hsolve
  have hsolver : once.solver = some (.direct (d.solve m.system).solver) := congrArg (fun x => x.1.solver) hsolve
  have hstatus : once.lastStatus = some (d.solve m.system).status := congrArg (fun x => x.1.lastStatus) hsolve
  have honce : (d.solve m.system).status = .optimal := by rw [← hoptimal, hsolve]; rfl
  obtain ⟨ho, hkept, hreports, hstats⟩ := DirectSolver.solve_again hreset (hsystem ▸ hdefined) honce
  have hagain := solve_of_solver hsolver
  rw [hsystem] at hagain
  rw [show again = _ from hagain]
  refine ⟨ho, hreports, hkept.trans hsystem.symm, ?_, _, hsolver, ?_⟩
  · rw [hstatus, honce]
    exact congrArg some ho
  · exact congrArg (fun x => some (AnySolver.direct x)) hstats

/-- Over binary64, pivots are chosen and moved for an equality and an inequality: the first solve makes a sweep, the
second one none, after a history in which a constraint was removed and another solver was at work. -/
theorem solve_stands_still_of_pivots :
    let d : DirectSolver (Engine Float KeyStream) := .new (.gaussSeidel ⟨.deterministic, 4, 1, [], [], none⟩) false
    let actions : List (Action Float (AnySolver (Engine Float KeyStream))) :=
      [.edit (.addVariable none), .edit (.addVariable none),
        .edit (.add ⟨[⟨2, ⟨0, 0⟩⟩], .eq, .fixed 4, 1, true, none, none⟩),
        .edit (.add ⟨[⟨1, ⟨0, 0⟩⟩], .eq, .fixed 6, 1, true, none, none⟩),
        .edit (.add ⟨[⟨1, ⟨0, 1⟩⟩], .ge, .fixed 3, 1, true, none, none⟩),
        .install (.resolving (.new .adding (.kaczmarz ⟨1, 1, 1, []⟩) true none)), .edit .solve, .edit (.remove ⟨1⟩),
        .edit (.setValue ⟨0, 0⟩ 7), .install (.direct d)]
    let m := (Model.new 0 none).perform actions
    sweepReports m.solve.2.2 ≠ [] ∧ m.solve.2.1 = .optimal ∧ sweepReports m.solve.1.solve.2.2 = [] ∧
      m.solve.1.solve.1.system = m.solve.1.system := by
  intro d actions m
  have ho : m.solve.2.1 = .optimal := by decide +kernel
  obtain ⟨-, hreports, hsystem, -⟩ := solve_stands_still m d rfl rfl ho (by decide +kernel)
  exact ⟨by decide +kernel, ho, hreports, hsystem⟩

end Model

end SoftLinear
