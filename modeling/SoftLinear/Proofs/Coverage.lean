import SoftLinear.Proofs.Arena
import SoftLinear.Proofs.Selection

/-!
# Pivot coverage over histories

A direct solver keeps the pivot entries of a Gauss–Seidel relaxation from one solve to the next.  It selects anew when
the list of enabled constraints is not the one it has prepared for, and patches the entries when a constraint is removed.

What is kept along a history is that the entries serve the prepared list (`DirectSolver.Serves`), whatever the flags of
its constraints are meanwhile.  Flags do not matter for that, only terms do, and terms change by additions and removals
alone.  A solve compares lists first, so what it starts from serves the constraints enabled then
(`DirectSolver.Serves.exists_run`).
-/

namespace SoftLinear

variable {α γ : Type} [Scalar α]

/-! ## Defined weights -/

theorem Term.absorb_defined [Scalar.Lawful α] {t : Term α} {ts : List (Term α)}
    (ht : Scalar.isFinite t.coefficient = true) (hts : ∀ x ∈ ts, Scalar.isNaN x.coefficient = false) :
    ∀ x ∈ t.absorb ts, Scalar.isNaN x.coefficient = false := by
  induction ts with
  | nil => simpa [absorb] using Scalar.Lawful.defined_of_isFinite ht
  | cons y rest ih =>
    obtain ⟨hy, hrest⟩ := List.forall_mem_cons.mp hts
    unfold absorb
    split
    · exact List.forall_mem_cons.mpr ⟨Scalar.Lawful.add_defined hy ht, hrest⟩
    · exact List.forall_mem_cons.mpr ⟨hy, ih hrest⟩

/-- Sums of finite weights need not be finite, but they are defined. -/
theorem Draft.constraint_defined [Scalar.Lawful α] (d : Draft α)
    (h : ∀ t ∈ d.terms, Scalar.isFinite t.coefficient = true) : d.constraint.Defined := by
  have key : ∀ ts acc : List (Term α), (∀ t ∈ ts, Scalar.isFinite t.coefficient = true) →
      (∀ x ∈ acc, Scalar.isNaN x.coefficient = false) →
      ∀ x ∈ ts.foldl (fun acc t => t.absorb acc) acc, Scalar.isNaN x.coefficient = false := by
    intro ts
    induction ts with
    | nil => exact fun _ _ hacc => hacc
    | cons t ts ih =>
      intro acc hts hacc
      obtain ⟨ht, hts⟩ := List.forall_mem_cons.mp hts
      exact ih _ hts (Term.absorb_defined ht hacc)
  exact key d.terms [] h (by simp)

namespace System

variable {s t : System α}

/-- No weight of a constraint is undefined. -/
def Defined (s : System α) : Prop := ∀ id c, s.constraint? id = some c → c.Defined

theorem SameTerms.defined (h : SameTerms s t) (hs : s.Defined) : t.Defined := by
  intro id c hc
  obtain ⟨d, hd, hterms⟩ := PivotEntry.exists_constraint_of_terms (h.terms id) hc
  unfold Constraint.Defined
  rw [hterms]
  exact hs id d hd

theorem Inserted.defined {c : Constraint α} {id : ConstraintId} (h : Inserted s c t id) (hs : s.Defined)
    (hc : c.Defined) : t.Defined := by
  intro other d hd
  rw [h.constraint] at hd
  split at hd
  · obtain rfl := Option.some.inj hd
    exact hc
  · exact hs other d hd

theorem Erased.defined {id : ConstraintId} (h : Erased s t id) (hs : s.Defined) : t.Defined := by
  intro other d hd
  rw [h.constraint] at hd
  split at hd
  · cases hd
  · exact hs other d hd

theorem Linked.attached_of_wanted [Scalar.Lawful α] (h : s.Linked) {ids : List ConstraintId} {v : Variable}
    (hv : PivotEntry.Wanted s ids v) : v ∈ s.attached := by
  obtain ⟨id, -, c, hc, hweighs⟩ := hv
  have hnoted : id ∈ s.activeOf v := (h.mem v id).mpr ⟨c, hc, Constraint.mem_vars_of_influence hweighs.2⟩
  exact (h.attached v).mpr (List.ne_nil_of_mem hnoted)

end System

/-! ## What a solve starts from -/

namespace DirectSolver

variable [Generator γ] {d : DirectSolver (Engine α γ)} {s t : System α}

/-- The solver moves pivots, and its entries serve the list it has prepared. -/
def Serves (d : DirectSolver (Engine α γ)) (s : System α) : Prop :=
  ∃ g, d.engine = .gaussSeidel g ∧ ∀ l, d.prepared = some l → PivotEntry.Serves s l g.entries

omit [Generator γ] in
theorem Serves.sameTerms (h : d.Serves s) (hterms : s.SameTerms t) : d.Serves t := by
  obtain ⟨g, hg, hserves⟩ := h
  exact ⟨g, hg, fun l hl => (hserves l hl).congr fun id _ => hterms.terms id⟩

theorem Serves.removed [Scalar.Lawful α] (h : d.Serves s) {id : ConstraintId} (ht : s.Erased t id) :
    (d.removed t id).Serves t := by
  obtain ⟨g, hg, hserves⟩ := h
  refine ⟨{ g with entries := PivotEntry.withdraw t g.entries id, prepared := id.erase g.prepared }, ?_, ?_⟩
  · unfold DirectSolver.removed
    rw [hg]
    rfl
  · intro l hl
    unfold DirectSolver.removed at hl
    rw [hg] at hl
    obtain ⟨l', hl', rfl⟩ := Option.map_eq_some_iff.mp (hl : d.prepared.map id.erase = some l)
    refine (hserves l' hl').withdraw id ?_
    intro other hne
    rw [ht.constraint, if_neg hne]

theorem Serves.ready [Scalar.Lawful α] [Generator.Lawful γ] (h : d.Serves s) (hs : s.WellFormed) (hlinked : s.Linked)
    (hdefined : s.Defined) (scope : Scope α) : ∃ r : Run α (GaussSeidel α γ),
      d.ready ⟨d.engine, s, scope⟩ s.enabledIds = r.map .gaussSeidel ∧
      PivotEntry.Serves r.system s.enabledIds r.engine.entries := by
  obtain ⟨g, hg, hserves⟩ := h
  unfold DirectSolver.ready
  split
  · rename_i hprepared
    exact ⟨⟨g, s, scope⟩, by rw [hg]; rfl, hserves _ hprepared⟩
  · -- what is wanted is attached, so the selector is asked about all of it
    have hnodup : s.enabledIds.Nodup := by
      unfold System.enabledIds
      rw [System.liveIds_eq_filter]
      exact hs.nodup_order.filter _
    have hselect := g.selector.select_serves hnodup (fun id hid => hs.mem_enabledIds.mp hid)
      (fun x hx => hdefined x.1 x.2 (System.mem_live.mp hx).2.1) (fun v hv => hlinked.attached_of_wanted hv)
    refine ⟨GaussSeidel.prepare ⟨g, s, scope⟩ s.enabledIds, by rw [hg]; rfl, ?_⟩
    exact hselect.congr fun id _ => (System.apply_sameRules _ _).sameTerms.terms id

/-- **What a solve starts from**: entries that serve the constraints enabled at that moment. -/
theorem Serves.exists_run [Scalar.Lawful α] [Generator.Lawful γ] (h : d.Serves s) (hs : s.WellFormed)
    (hlinked : s.Linked) (hdefined : s.Defined) : ∃ r : Run α (GaussSeidel α γ),
      d.task s = r.map .gaussSeidel ∧ PivotEntry.Serves r.system s.enabledIds r.engine.entries := by
  have hseed := s.seed_sameRules d.reset
  obtain ⟨r, hr, hserves⟩ := (h.sameTerms hseed.sameTerms).ready (hseed.toSameOutline.wellFormed hs)
    (hseed.sameTerms.linked hlinked) (hseed.sameTerms.defined hdefined) { tolerance := (s.seed d.reset).tolerance }
  refine ⟨⟨r.engine, r.system, (d.task s).scope⟩, ?_, ?_⟩
  · unfold task
    simp only [hr]
    rfl
  · rw [← hseed.enabledIds_eq]
    exact hserves

/-- A solve relaxes the run that it starts from, and takes over what comes out. -/
theorem solve_of_task {r : Run α (GaussSeidel α γ)} (h : d.task s = r.map .gaussSeidel) :
    let x := GaussSeidel.relax r r.engine.budget
    (d.solve s).system = x.1.system ∧ (d.solve s).status = x.2.status ∧
      (d.solve s).solver.engine = .gaussSeidel x.1.engine ∧ (d.solve s).solver.prepared = some s.enabledIds := by
  let y := Relaxation.relax (d.task s) (Relaxation.budget (d.task s).engine)
  have hy : y = (GaussSeidel.relax r r.engine.budget).map (Run.map .gaussSeidel) id := by
    simp only [y, h]
    rfl
  have hsystem : (d.solve s).system = y.1.system := rfl
  have hstatus : (d.solve s).status = y.2.status := rfl
  have hengine : (d.solve s).solver.engine = y.1.engine := rfl
  rw [hsystem, hstatus, hengine, hy]
  exact ⟨rfl, rfl, rfl, congrArg some (s.seed_sameRules d.reset).enabledIds_eq⟩

theorem Serves.solve [Scalar.Lawful α] [Generator.Lawful γ] (h : d.Serves s) (hs : s.WellFormed) (hlinked : s.Linked)
    (hdefined : s.Defined) : (d.solve s).solver.Serves (d.solve s).system := by
  obtain ⟨r, hr, hserves⟩ := h.exists_run hs hlinked hdefined
  obtain ⟨hsystem, -, hengine, hprepared⟩ := solve_of_task hr
  refine ⟨_, hengine, ?_⟩
  intro l hl
  obtain rfl := Option.some.inj (hprepared.symm.trans hl)
  rw [hsystem]
  -- a relaxation stores values and leaves the entries alone
  exact hserves.congr fun id _ => rfl

end DirectSolver

/-! ## Histories -/

/-- An action that keeps to defined weights and to new solvers that move pivots. -/
def Action.IsTame : Action α (DirectSolver (Engine α γ)) → Prop
  | .edit (.add d) => ∀ t ∈ d.terms, Scalar.isFinite t.coefficient = true
  | .install x => ∃ g reset, x = .new (.gaussSeidel g) reset
  | _ => True

namespace Model

variable [Generator γ] {m n : Model α (DirectSolver (Engine α γ))}

/-- The weights of the model are defined, and its solver serves it. -/
structure Covered (m : Model α (DirectSolver (Engine α γ))) : Prop where
  defined : m.system.Defined
  solver : ∃ d, m.solver = some d ∧ d.Serves m.system

omit [Generator γ] in
theorem Covered.sameTerms (h : m.Covered) (hsolver : n.solver = m.solver) (hterms : m.system.SameTerms n.system) :
    n.Covered := by
  obtain ⟨d, hd, hserves⟩ := h.solver
  exact ⟨hterms.defined h.defined, d, hsolver.trans hd, hserves.sameTerms hterms⟩

omit [Generator γ] in
theorem new_covered (i : Nat) (g : GaussSeidel α γ) (reset : Bool) :
    (Model.new i (some (DirectSolver.new (.gaussSeidel g) reset)) : Model α _).Covered := by
  refine ⟨?_, _, rfl, g, rfl, fun l hl => by cases hl⟩
  intro id c hc
  simp [Model.new, System.empty, System.constraint?] at hc

theorem Covered.add [Scalar.Lawful α] (h : m.Covered) (draft : Draft α)
    (hfinite : ∀ t ∈ draft.terms, Scalar.isFinite t.coefficient = true) : (m.apply (.add draft)).Covered := by
  rcases m.apply_add draft with ⟨-, -, he⟩ | ⟨t, id, -, hi, he⟩
  · rwa [he]
  · obtain ⟨d, hd, g, hg, -⟩ := h.solver
    rw [he, hd]
    exact ⟨(System.inserted_of_insert hi).defined h.defined (draft.constraint_defined hfinite), _, rfl, g, hg, fun l hl => by cases hl⟩

theorem Covered.remove [Scalar.Lawful α] (h : m.Covered) (id : ConstraintId) : (m.apply (.remove id)).Covered := by
  rcases m.apply_remove id with he | ⟨t, c, ht, he⟩
  · rwa [he]
  · obtain ⟨d, hd, hserves⟩ := h.solver
    have herased := System.erased_of_erase ht
    rw [he, hd]
    exact ⟨herased.defined h.defined, _, rfl, hserves.removed herased⟩

theorem Covered.solve [Scalar.Lawful α] [Generator.Lawful γ] (h : m.Covered) (hs : m.system.WellFormed)
    (hlinked : m.system.Linked) : m.solve.1.Covered := by
  have hdefined := (solve_sameOutline hs).sameTerms.defined h.defined
  obtain ⟨d, hd, hserves⟩ := h.solver
  rw [solve_of_solver hd] at hdefined ⊢
  exact ⟨hdefined, _, rfl, hserves.solve hs hlinked h.defined⟩

/-- **Every tame action keeps the entries in step.** -/
theorem Covered.act [Scalar.Lawful α] [Generator.Lawful γ] (h : m.Covered) (hs : m.system.WellFormed)
    (hlinked : m.system.Linked) {a : Action α (DirectSolver (Engine α γ))} (ha : a.IsTame) : (m.act a).Covered := by
  cases a with
  | install x =>
    obtain ⟨g, reset, rfl⟩ := ha
    exact ⟨h.defined, _, rfl, g, rfl, fun l hl => by cases hl⟩
  | flag id b => exact h.sameTerms rfl (m.system.modify_sameTerms id fun _ => rfl)
  | edit e =>
    by_cases hq : e.isQuiet = true
    · refine h.sameTerms ?_ (m.apply_quiet_sameTerms hq).1
      obtain ⟨t, he, -⟩ := m.apply_quiet hq
      show (m.apply e).solver = m.solver
      rw [he]
    cases e with
    | add draft => exact h.add draft ha
    | remove id => exact h.remove id
    | setEnabled id b =>
      -- the solver does not listen to flags: it compares lists when it solves
      rcases m.apply_setEnabled id b with ⟨-, -, he⟩ | ⟨-, -, he⟩
      · show (m.apply (.setEnabled id b)).Covered
        rwa [he]
      · have hsolver : (m.apply (.setEnabled id b)).solver = m.solver := by
          rw [he]
          exact Option.map_id'
        have hterms : m.system.SameTerms (m.apply (.setEnabled id b)).system := by
          rw [he]
          exact m.system.modify_sameTerms id fun _ => rfl
        exact h.sameTerms hsolver hterms
    | solve => exact h.solve hs hlinked
    | _ => exact absurd rfl hq

theorem perform_covered [Scalar.Lawful α] [Generator.Lawful γ] (h : m.system.WellFormed ∧ m.system.Linked ∧ m.Covered)
    (actions : List (Action α (DirectSolver (Engine α γ)))) (htame : ∀ a ∈ actions, a.IsTame) :
    (m.perform actions).system.WellFormed ∧ (m.perform actions).system.Linked ∧ (m.perform actions).Covered := by
  induction actions generalizing m with
  | nil => exact h
  | cons a actions ih =>
    obtain ⟨hs, hlinked, hcovered⟩ := h
    obtain ⟨ha, hactions⟩ := List.forall_mem_cons.mp htame
    obtain ⟨hs', hlinked'⟩ := m.act_linked a hs hlinked
    exact ih ⟨hs', hlinked', hcovered.act hs hlinked ha⟩ hactions

/-- **Pivot coverage.**  Start with any Gauss–Seidel relaxation and make any edits, solves, silent changes of flags and
installations of other such relaxations, where weights are finite when they are added.  Then the next solve relaxes a
run on the same constraints in which each enabled constraint with a weight that is not almost zero has exactly one primary
entry, each variable with a weight and a share that are not almost zero in an enabled constraint is a pivot, and each
entry names an enabled constraint and one of its variables. -/
theorem solve_pivots_spec [Scalar.Lawful α] [Generator.Lawful γ] (i : Nat) (g : GaussSeidel α γ) (reset : Bool)
    (actions : List (Action α (DirectSolver (Engine α γ))))
    (hfinite : ∀ d, .edit (.add d) ∈ actions → ∀ t ∈ d.terms, Scalar.isFinite t.coefficient = true)
    (hnew : ∀ x, .install x ∈ actions → ∃ g reset, x = DirectSolver.new (.gaussSeidel g) reset) :
    let m := (Model.new i (some (DirectSolver.new (.gaussSeidel g) reset))).perform actions
    ∃ r : Run α (GaussSeidel α γ),
      (m.solve.1.system = (GaussSeidel.relax r r.engine.budget).1.system ∧
        m.solve.2.1 = (GaussSeidel.relax r r.engine.budget).2.status ∧
        m.solve.1.solver.map (·.engine) = some (.gaussSeidel (GaussSeidel.relax r r.engine.budget).1.engine)) ∧
      m.system.SameRules r.system ∧
      (∀ id c, r.system.constraint? id = some c → c.enabled = true →
        (∃ t ∈ c.terms, nearZero < Scalar.abs t.coefficient) →
        r.engine.entries.countP (fun e => e.constraint = id && !e.duplicate) = 1) ∧
      (∀ id c v, r.system.constraint? id = some c → c.enabled = true → nearZero < Scalar.abs (c.coefficientOf v) →
        nearZero < c.influence v → ∃ e ∈ r.engine.entries, e.pivot = v) ∧
      ∀ e ∈ r.engine.entries, ∃ c, r.system.constraint? e.constraint = some c ∧ c.enabled = true ∧
        e.pivot ∈ c.terms.map (·.var) := by
  intro m
  -- no action brings in an infinite weight or another kind of engine
  have htame : ∀ a ∈ actions, a.IsTame := by
    intro a ha
    cases a with
    | install x => exact hnew x ha
    | flag id b => trivial
    | edit e =>
      cases e with
      | add d => exact hfinite d ha
      | _ => trivial
  obtain ⟨hs, hlinked, hdefined, d, hd, hserves⟩ : m.system.WellFormed ∧ m.system.Linked ∧ m.Covered :=
    perform_covered ⟨System.empty_wellFormed i, System.empty_linked i, new_covered i g reset⟩ actions htame
  obtain ⟨r, hr, hall⟩ := hserves.exists_run hs hlinked hdefined
  obtain ⟨hsystem, hstatus, hengine, -⟩ := DirectSolver.solve_of_task hr
  -- the entries serve the list of enabled constraints, and the run has the flags of the model
  have hrules : m.system.SameRules r.system := by
    have hsystem : r.system = (d.task m.system).system := by rw [hr]; rfl
    rw [hsystem]
    exact d.task_rules m.system
  have henabled : ∀ id, id ∈ m.system.enabledIds ↔ r.system.flag? id = some true := by
    intro id
    rw [hs.mem_enabledIds, hrules.flags]
  have hmem : ∀ id c, r.system.constraint? id = some c → c.enabled = true → id ∈ m.system.enabledIds := by
    intro id c hc he
    rw [henabled, System.flag?, hc, Option.map_some, he]
  refine ⟨r, ?_, hrules, ?_, ?_, ?_⟩
  · rw [solve_of_solver hd]
    exact ⟨hsystem, hstatus, congrArg some hengine⟩
  · intro id c hc he hheavy
    exact hall.countP_primary (hmem id c hc he) hc hheavy
  · intro id c v hc he hweight hshare
    exact hall.covers v ⟨id, hmem id c hc he, c, hc, hweight, hshare⟩
  · intro e he
    obtain ⟨hid, c, hc, hv⟩ := hall.fits e he
    have hflag := (henabled _).mp hid
    rw [System.flag?, hc] at hflag
    exact ⟨c, hc, Option.some.inj hflag, hv⟩

/-- A variable over binary64 loses its entry when a constraint is removed after a solve with random selection: it weighs
something in the other constraint, and the next solve finds it as a pivot. -/
theorem solve_pivots_of_removal :
    let actions : List (Action Float (DirectSolver (Engine Float KeyStream))) :=
      [.edit (.addVariable none), .edit (.addVariable none),
        .edit (.add ⟨[⟨5, ⟨0, 1⟩⟩], .eq, .fixed 1, 1, true, none, none⟩),
        .edit (.add ⟨[⟨3, ⟨0, 0⟩⟩, ⟨1, ⟨0, 1⟩⟩], .eq, .fixed 4, 1, true, none, none⟩),
        .edit .solve, .edit (.remove ⟨0⟩)]
    let g : GaussSeidel Float KeyStream := ⟨.twoPhase (.ofSeed 7) 3, 2, 1, [], [], none⟩
    let m := (Model.new 0 (some (DirectSolver.new (.gaussSeidel g) false))).perform actions
    ((m.system.constraint? ⟨1⟩).any fun c => c.enabled && decide (nearZero < Scalar.abs (c.coefficientOf ⟨0, 1⟩)) &&
      decide (nearZero < c.influence ⟨0, 1⟩)) = true ∧
    ∃ r : Run Float (GaussSeidel Float KeyStream), m.solve.1.system = (GaussSeidel.relax r r.engine.budget).1.system ∧
      ∃ e ∈ r.engine.entries, e.pivot = ⟨0, 1⟩ := by
  intro actions g m
  have hweighs : ((m.system.constraint? ⟨1⟩).any fun c => c.enabled &&
      decide (nearZero < Scalar.abs (c.coefficientOf ⟨0, 1⟩)) && decide (nearZero < c.influence ⟨0, 1⟩)) = true := by
    decide +kernel
  have hfinite : ∀ d, .edit (.add d) ∈ actions → ∀ t ∈ d.terms, Scalar.isFinite t.coefficient = true := by
    intro d hd
    simp only [actions, List.mem_cons, List.not_mem_nil, Action.edit.injEq, Edit.add.injEq, reduceCtorEq, false_or,
      or_false] at hd
    rcases hd with rfl | rfl
    · decide +kernel
    · decide +kernel
  have hnew : ∀ x, .install x ∈ actions → ∃ g reset, x = DirectSolver.new (.gaussSeidel g) reset := by
    intro x hx
    simp [actions] at hx
  obtain ⟨r, ⟨hsystem, -⟩, hrules, -, hcovers, -⟩ := solve_pivots_spec 0 g false actions hfinite hnew
  refine ⟨hweighs, r, by with_reducible exact hsystem, ?_⟩
  obtain ⟨c, hc, hall⟩ := (Option.any_eq_true _ _).mp hweighs
  simp only [Bool.and_eq_true, decide_eq_true_eq] at hall
  obtain ⟨⟨hon, hweight⟩, hshare⟩ := hall
  replace hrules : m.system.SameRules r.system := hrules
  obtain ⟨d, hd, hbare⟩ := hrules.toSameOutline.symm.exists_constraint? hc
  have hflag := hrules.flags ⟨1⟩
  rw [System.flag?, System.flag?, hc, hd, Option.map_some, Option.map_some, hon] at hflag
  have hterms : d.terms = c.terms := (congrArg Constraint.terms hbare).symm
  have hd' : d.Weighs ⟨0, 1⟩ := (Constraint.weighs_congr hterms _).mpr ⟨hweight, hshare⟩
  exact hcovers ⟨1⟩ d ⟨0, 1⟩ hd (Option.some.inj hflag) hd'.1 hd'.2

end Model

end SoftLinear
