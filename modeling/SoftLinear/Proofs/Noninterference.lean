import SoftLinear.Proofs.Failure
import SoftLinear.Proofs.Likeness

/-!
# Disabled constraints do not interfere

Two systems that agree in their tolerance, their values and their enabled constraints may differ in everything else: in the
constraints that are disabled, in the notes that these leave at the variables, in names and pivots.  A solve by a solver
that has not solved anything yet does not see the difference.

The strategies are followed step by step through two runs that are alike; they switch and suspend only constraints of
their list, in the same places of both systems, so the runs stay alike (`Strategy.resolve_alike`).
-/

namespace SoftLinear

variable {α γ : Type} [Scalar α] {counted : Prop}

/-! ## Strategies -/

namespace Conflict

section Steps

variable {sorted : List ConstraintId} {r r' : Run α (Engine α γ)}

theorem switch_alike (h : Run.Alike counted sorted r r') (ids : List ConstraintId) (enabled : Bool) :
    Run.Alike counted sorted (switch r ids enabled) (switch r' ids enabled) :=
  ⟨h.engine, h.plain, h.scope, h.system.switch ids enabled⟩

theorem restore_alike (h : Run.Alike counted sorted r r') (p : Point α) :
    Run.Alike counted sorted (restore r p) (restore r' p) :=
  ⟨h.engine, h.plain, h.scope, h.system.store p⟩

theorem suspend_alike (h : Run.Alike counted sorted r r') (id : ConstraintId) :
    Run.Alike counted sorted (suspend r id) (suspend r' id) :=
  ⟨h.engine, h.plain, (h.scope.tally Stats.recordSuspension).report _ _, h.system.switch [id] false⟩

theorem note_alike (h : Run.Alike counted sorted r r') (e e' : Event α) :
    Run.Alike counted sorted { r with scope := r.scope.report e } { r' with scope := r'.scope.report e' } :=
  ⟨h.engine, h.plain, h.scope.report e e', h.system⟩

theorem settle_alike (h : Run.Alike counted sorted r r') {suspended : List ConstraintId} (hsub : suspended ⊆ sorted)
    (status : Status) : (settle r' suspended status).2 = (settle r suspended status).2 := by
  have hhopeless : ∀ (s : System α) tol id, isHopeless s tol id =
      ((s.constraint? id).map Constraint.sketch).any fun c => c.isHard && !c.isSatisfiableAlone tol := by
    intro s tol id
    unfold isHopeless
    cases s.constraint? id <;> simp
  have hany : suspended.any (isHopeless r'.system r'.scope.tolerance) =
      suspended.any (isHopeless r.system r.scope.tolerance) := by
    rw [Bool.eq_iff_iff, List.any_eq_true, List.any_eq_true]
    refine exists_congr fun id => and_congr_right fun hid => ?_
    rw [hhopeless, hhopeless, h.system.sketches id (hsub hid), h.scope.tolerance]
  unfold settle
  rw [hany]

end Steps

section Loops

variable [Generator γ] {sorted : List ConstraintId} {budget : Nat} {r r' r₁ : Run α (Engine α γ)} {outcome : Outcome α}

theorem attempted_alike (h : Run.Alike counted sorted r r') (ha : attempt r sorted budget = (r₁, outcome)) :
    ∃ r₁', attempt r' sorted budget = (r₁', outcome) ∧ Run.Alike counted sorted r₁ r₁' := by
  obtain ⟨houtcome, hrun⟩ := attempt_alike h budget
  rw [ha] at houtcome hrun
  exact ⟨_, Prod.ext rfl houtcome, hrun⟩

theorem addEach_alike (h : Run.Alike counted sorted r r') (budget : Nat) (pending : List ConstraintId)
    {committed committed' : Point α} (hcommitted : committed = committed') (suspended : List ConstraintId) :
    (addEach sorted budget pending r' committed' suspended).2 = (addEach sorted budget pending r committed suspended).2 ∧
      Run.Alike counted sorted (addEach sorted budget pending r committed suspended).1
        (addEach sorted budget pending r' committed' suspended).1 := by
  subst hcommitted
  fun_induction addEach sorted budget pending r committed suspended generalizing r' with
  | case1 r committed suspended => exact ⟨rfl, h⟩
  | case2 id rest r committed suspended r₁ outcome ha ho ih =>
    obtain ⟨r₁', ha', h₁⟩ := attempted_alike (switch_alike h [id] true) ha
    rw [addEach, ha']
    simp only [ho, if_true]
    rw [h₁.system.values]
    exact ih h₁
  | case3 id rest r committed suspended r₁ outcome ha ho ih =>
    obtain ⟨r₁', ha', h₁⟩ := attempted_alike (switch_alike h [id] true) ha
    rw [addEach, ha']
    simp only [ho]
    exact ih (suspend_alike (restore_alike h₁ committed) id)

theorem searchWindows_alike (h : Run.Alike counted sorted r r') (budget : Nat) (pending : List ConstraintId)
    (others : Nat) {committed committed' : Point α} (hcommitted : committed = committed')
    (suspended : List ConstraintId) :
    (searchWindows sorted budget pending others r' committed' suspended).2 =
        (searchWindows sorted budget pending others r committed suspended).2 ∧
      Run.Alike counted sorted (searchWindows sorted budget pending others r committed suspended).1
        (searchWindows sorted budget pending others r' committed' suspended).1 := by
  subst hcommitted
  fun_induction searchWindows sorted budget pending others r committed suspended generalizing r' with
  | case1 others r committed suspended =>
    rw [searchWindows]
    exact ⟨rfl, h⟩
  | case2 others r committed suspended id rest window start r₁ outcome ha r₂ ho =>
    rename_i ih
    obtain ⟨r₁', ha', h₁⟩ := attempted_alike (switch_alike h window true) ha
    rw [searchWindows, ha']
    simp only [ho, if_true]
    -- both runs commit the same values
    rw [h₁.system.values]
    exact ih (note_alike h₁ _ _)
  | case3 others r committed suspended id rest window start r₁ outcome ha r₂ ho r₃ hw =>
    rename_i ih
    obtain ⟨r₁', ha', h₁⟩ := attempted_alike (switch_alike h window true) ha
    rw [searchWindows, ha']
    simp only [ho]
    rw [if_pos hw]
    exact ih (restore_alike (switch_alike (note_alike h₁ _ _) window false) committed)
  | case4 others r committed suspended id rest window start r₁ outcome ha r₂ ho r₃ hw =>
    rename_i ih
    obtain ⟨r₁', ha', h₁⟩ := attempted_alike (switch_alike h window true) ha
    rw [searchWindows, ha']
    simp only [ho]
    rw [if_neg hw]
    exact ih (suspend_alike (restore_alike (switch_alike (note_alike h₁ _ _) window false) committed) id)

omit [Generator γ] in
theorem victim_alike (h : Run.Alike counted sorted r r') (residuals : Residuals α) :
    victim? r' sorted residuals = victim? r sorted residuals := by
  unfold victim?
  rw [h.system.liveIds (List.Subset.refl sorted), h.scope.tolerance]

theorem removeRounds_alike (h : Run.Alike counted sorted r r') (rounds : Nat) {suspended : List ConstraintId}
    (hsub : suspended ⊆ sorted) :
    (removeRounds sorted budget rounds r' suspended).2 = (removeRounds sorted budget rounds r suspended).2 ∧
      Run.Alike counted sorted (removeRounds sorted budget rounds r suspended).1
        (removeRounds sorted budget rounds r' suspended).1 := by
  fun_induction removeRounds sorted budget rounds r suspended generalizing r' with
  | case1 rounds r suspended r₁ outcome ha ho =>
    obtain ⟨r₁', ha', h₁⟩ := attempted_alike h ha
    rw [removeRounds, ha']
    simp only [ho, if_true]
    exact ⟨settle_alike h₁ hsub _, h₁⟩
  | case2 r suspended r₁ outcome ha ho id rounds hv ih =>
    obtain ⟨r₁', ha', h₁⟩ := attempted_alike h ha
    rw [removeRounds, ha']
    simp only [ho, victim_alike h₁, hv]
    -- both runs name the same victim, as their residuals and flags agree
    refine ih (suspend_alike h₁ id) (List.append_subset.mpr ⟨hsub, ?_⟩)
    simpa using (victim_mem hv).1
  | case3 rounds r suspended r₁ outcome ha ho hnone =>
    obtain ⟨r₁', ha', h₁⟩ := attempted_alike h ha
    rw [removeRounds, ha']
    simp only [ho, victim_alike h₁]
    cases hv : victim? r₁ sorted outcome.residuals with
    | none => exact ⟨settle_alike h₁ hsub _, h₁⟩
    | some id =>
      cases rounds with
      | zero => exact ⟨settle_alike h₁ hsub _, h₁⟩
      | succ n => exact absurd rfl (hnone id n hv)

end Loops

end Conflict

/-- **A strategy ends in the same way in two runs that are alike.** -/
theorem Strategy.resolve_alike [Generator γ] (strategy : Strategy) {sorted : List ConstraintId}
    {r r' : Run α (Engine α γ)} (h : Run.Alike counted sorted r r') {budget : Nat}
    (hsub : (strategy.resolve r sorted budget).2.suspended ⊆ sorted) :
    (strategy.resolve r' sorted budget).2 = (strategy.resolve r sorted budget).2 ∧
      Run.Alike counted sorted (strategy.resolve r sorted budget).1 (strategy.resolve r' sorted budget).1 := by
  have hoff := Conflict.switch_alike h sorted false
  have hsettle : ∀ x x' : Run α (Engine α γ) × List ConstraintId, x'.2 = x.2 ∧ Run.Alike counted sorted x.1 x'.1 →
      x.2 ⊆ sorted → (Conflict.settle x'.1 x'.2 .optimal).2 = (Conflict.settle x.1 x.2 .optimal).2 ∧
        Run.Alike counted sorted (Conflict.settle x.1 x.2 .optimal).1 (Conflict.settle x'.1 x'.2 .optimal).1 := by
    rintro x x' ⟨hsuspended, hrun⟩ hx
    rw [hsuspended]
    exact ⟨Conflict.settle_alike hrun hx .optimal, hrun⟩
  cases strategy with
  | adding => exact hsettle _ _ (Conflict.addEach_alike hoff budget sorted hoff.system.values.symm []) hsub
  | removing => exact Conflict.removeRounds_alike h sorted.length (List.nil_subset sorted)
  | binarySearch => exact hsettle _ _ (Conflict.searchWindows_alike hoff budget sorted 0 hoff.system.values.symm []) hsub

/-! ## Systems -/

section Comparison

variable [DecidableEq α]

instance : DecidableEq (Term α) := fun a b =>
  decidable_of_iff (a.coefficient = b.coefficient ∧ a.var = b.var) (by cases a; cases b; simp)

instance : DecidableEq (RightSide α)
  | .fixed a, .fixed b => decidable_of_iff (a = b) (by simp)
  | .tracked i a, .tracked j b => decidable_of_iff (i = j ∧ a = b) (by simp)
  | .fixed _, .tracked .. => isFalse nofun
  | .tracked .., .fixed _ => isFalse nofun

instance : DecidableEq (Constraint α) := fun a b =>
  decidable_of_iff (a.terms = b.terms ∧ a.relation = b.relation ∧ a.rightSide = b.rightSide ∧ a.penalty = b.penalty ∧
    a.enabled = b.enabled ∧ a.pivot = b.pivot ∧ a.name = b.name) (by cases a; cases b; simp)

end Comparison

namespace System

variable {ids : List ConstraintId} {s t : System α}

omit [Scalar α] in
/-- The enabled constraints in the order in which they were added, with their identifiers, as a relaxation sees them. -/
def enabledSketches (s : System α) : List (ConstraintId × Constraint α) :=
  (s.live s.order).map fun x => (x.1, x.2.sketch)

omit [Scalar α] in
theorem enabledIds_eq_map (s : System α) : s.enabledIds = s.enabledSketches.map (·.1) := by
  unfold enabledSketches
  rw [List.map_map]
  rfl

/-- Systems with the same values and the same enabled constraints are alike in the places of these. -/
theorem alike_of_enabledSketches (hs : s.WellFormed ∧ s.Linked) (ht : t.WellFormed ∧ t.Linked)
    (hvalues : t.values = s.values) (h : t.enabledSketches = s.enabledSketches) : Alike s.enabledIds s t where
  values := hvalues
  sketches id hid := by
    obtain ⟨x, hx, rfl⟩ := List.mem_map.mp hid
    have hmem : (x.1, x.2.sketch) ∈ t.enabledSketches := by
      rw [h]
      exact List.mem_map.mpr ⟨x, hx, rfl⟩
    obtain ⟨y, hy, hyx⟩ := List.mem_map.mp hmem
    obtain ⟨hid, hsketch⟩ := Prod.mk.inj hyx
    have hat := (mem_live.mp hy).2.1
    rw [hid] at hat
    rw [hat, (mem_live.mp hx).2.1, Option.map_some, Option.map_some, hsketch]
  sound := hs
  sound' := ht

omit [Scalar α] in
theorem values_mapValues (s : System α) (f : α → α) : (s.mapValues f).values = s.values.map f := by
  simp [values, mapValues, Function.comp_def]

theorem Alike.mapValues (h : Alike ids s t) (f : α → α) : Alike ids (s.mapValues f) (t.mapValues f) where
  values := by rw [values_mapValues, values_mapValues, h.values]
  sketches := h.sketches
  sound := ⟨(mapValues_sameRules s f).toSameOutline.wellFormed h.sound.1, (mapValues_sameRules s f).sameTerms.linked h.sound.2⟩
  sound' := ⟨(mapValues_sameRules t f).toSameOutline.wellFormed h.sound'.1,
    (mapValues_sameRules t f).sameTerms.linked h.sound'.2⟩

theorem Alike.seed (h : Alike ids s t) (reset : Bool) : Alike ids (s.seed reset) (t.seed reset) := by
  unfold System.seed
  split
  · exact h.mapValues _
  · exact h.mapValues _

theorem Alike.penaltyOf (h : Alike ids s t) {id : ConstraintId} (hid : id ∈ ids) : t.penaltyOf id = s.penaltyOf id := by
  have hpenalty : ∀ u : System α, u.penaltyOf id = (((u.constraint? id).map Constraint.sketch).map (·.penalty)).getD 0 := by
    intro u
    unfold System.penaltyOf
    cases u.constraint? id <;> rfl
  rw [hpenalty, hpenalty, h.sketches id hid]

theorem insertByPriority_congr {id : ConstraintId} {list : List ConstraintId}
    (h : ∀ a ∈ id :: list, t.penaltyOf a = s.penaltyOf a) : t.insertByPriority id list = s.insertByPriority id list := by
  induction list with
  | nil => rfl
  | cons a list ih =>
    unfold System.insertByPriority
    rw [h id (by simp), h a (by simp), ih fun b hb => h b (by grind)]

theorem sortByPriority_congr {list : List ConstraintId} (h : ∀ id ∈ list, t.penaltyOf id = s.penaltyOf id) :
    t.sortByPriority list = s.sortByPriority list := by
  induction list with
  | nil => rfl
  | cons id list ih =>
    show t.insertByPriority id (t.sortByPriority list) = s.insertByPriority id (s.sortByPriority list)
    rw [ih fun a ha => h a (List.mem_cons_of_mem id ha)]
    refine insertByPriority_congr fun a ha => h a ?_
    exact ((s.sortByPriority_perm list).cons id).subset ha

theorem Alike.perm {ids' : List ConstraintId} (h : Alike ids s t) (hids : ids' ⊆ ids) : Alike ids' s t :=
  ⟨h.values, fun id hid => h.sketches id (hids hid), h.sound, h.sound'⟩

end System

/-! ## Solvers -/

variable [Generator γ] {s t : System α} {e : Engine α γ}

/-- What a solve begins with: the values are seeded, and the enabled constraints are the same as before. -/
theorem System.seed_alike (hs : s.WellFormed ∧ s.Linked) (ht : t.WellFormed ∧ t.Linked) (hvalues : t.values = s.values)
    (h : t.enabledSketches = s.enabledSketches) (reset : Bool) :
    (t.seed reset).enabledIds = (s.seed reset).enabledIds ∧
      Alike (s.seed reset).enabledIds (s.seed reset) (t.seed reset) := by
  rw [(t.seed_sameRules reset).enabledIds_eq, (s.seed_sameRules reset).enabledIds_eq]
  refine ⟨?_, (alike_of_enabledSketches hs ht hvalues h).seed reset⟩
  rw [enabledIds_eq_map, h, ← enabledIds_eq_map]

theorem DirectSolver.new_task (he : e.choosesPivots = false) (reset : Bool) (u : System α) :
    ∃ event, (new e reset).task u = ⟨e.withPrepared (u.seed reset).enabledIds, u.seed reset,
      Scope.report { tolerance := (u.seed reset).tolerance } event⟩ := by
  have hready := (new_kept e reset).ready_eq he (u.seed (new e reset).reset)
    { tolerance := (u.seed (new e reset).reset).tolerance } (u.seed (new e reset).reset).enabledIds
  simp only [DirectSolver.task, hready]
  exact ⟨_, rfl⟩

theorem DirectSolver.new_solve_alike (hs : s.WellFormed ∧ s.Linked) (ht : t.WellFormed ∧ t.Linked)
    (htol : t.tolerance = s.tolerance) (hvalues : t.values = s.values) (h : t.enabledSketches = s.enabledSketches)
    (he : e.choosesPivots = false) (reset : Bool) :
    let a := (new e reset).solve s
    let b := (new e reset).solve t
    b.status = a.status ∧ b.system.values = a.system.values ∧ b.solver.stats = a.solver.stats := by
  intro a b
  obtain ⟨hids, hsystem⟩ := System.seed_alike hs ht hvalues h reset
  obtain ⟨event, hs'⟩ := new_task he reset s
  obtain ⟨event', ht'⟩ := new_task he reset t
  have halike : Run.Alike True (s.seed reset).enabledIds ((new e reset).task s) ((new e reset).task t) := by
    rw [hs', ht', hids]
    refine ⟨rfl, ?_, ⟨?_, fun _ => rfl⟩, hsystem⟩
    · rw [Engine.choosesPivots_withPrepared]
      exact he
    · show (t.seed reset).tolerance = (s.seed reset).tolerance
      rw [(t.seed_sameRules reset).tolerance, (s.seed_sameRules reset).tolerance, htol]
  have hprepared : ((new e reset).task s).engine.prepared ⊆ (s.seed reset).enabledIds := by
    rw [hs', Engine.prepared_withPrepared]
    exact List.Subset.refl _
  obtain ⟨houtcome, hrun⟩ := halike.relax hprepared (Relaxation.budget ((new e reset).task s).engine)
  have hb : b.status = (Relaxation.relax ((new e reset).task t) (Relaxation.budget ((new e reset).task t).engine)).2.status ∧
      b.system = (Relaxation.relax ((new e reset).task t) (Relaxation.budget ((new e reset).task t).engine)).1.system ∧
      b.solver.stats =
        (Relaxation.relax ((new e reset).task t) (Relaxation.budget ((new e reset).task t).engine)).1.scope.stats :=
    ⟨rfl, rfl, rfl⟩
  rw [halike.engine] at hb
  exact ⟨hb.1.trans (congrArg Outcome.status houtcome), (congrArg System.values hb.2.1).trans hrun.system.values,
    hb.2.2.trans (hrun.scope.stats trivial)⟩

theorem ResolvingSolver.new_solve_alike (hs : s.WellFormed ∧ s.Linked) (ht : t.WellFormed ∧ t.Linked)
    (htol : t.tolerance = s.tolerance) (hvalues : t.values = s.values) (h : t.enabledSketches = s.enabledSketches)
    (he : e.choosesPivots = false) (strategy : Strategy) (reset : Bool) (budget : Option Nat) :
    let a := (new strategy e reset budget).solve s
    let b := (new strategy e reset budget).solve t
    b.status = a.status ∧ b.system.values = a.system.values ∧ b.solver.suspended = a.solver.suspended ∧
      b.solver.stats = a.solver.stats := by
  intro a b
  let d := new strategy e reset budget
  obtain ⟨hids, hsystem⟩ := System.seed_alike hs ht hvalues h reset
  have hagenda : d.agenda t = d.agenda s := by
    show (t.seed reset).sortByPriority (t.seed reset).enabledIds = _
    rw [hids]
    exact System.sortByPriority_congr fun id hid => hsystem.penaltyOf hid
  have halike : Run.Alike True (d.agenda s) (d.task s) (d.task t) := by
    refine ⟨rfl, he, ⟨?_, fun _ => rfl⟩, hsystem.perm ((s.seed reset).sortByPriority_perm _).subset⟩
    show (t.seed reset).tolerance = (s.seed reset).tolerance
    rw [(t.seed_sameRules reset).tolerance, (s.seed_sameRules reset).tolerance, htol]
  obtain ⟨hresolution, hrun⟩ := strategy.resolve_alike halike (d.resolution_marked hs.1).2.2
  have hb : d.resolution t = d.strategy.resolve (d.task t) (d.agenda s) (d.budget.getD (Relaxation.budget d.engine)) :=
    congrArg (fun sorted => d.strategy.resolve (d.task t) sorted (d.budget.getD (Relaxation.budget d.engine))) hagenda
  have hruns : b.status = (d.resolution t).2.status ∧ b.system = (d.resolution t).1.system ∧
      b.solver.suspended = (d.resolution t).2.suspended ∧ b.solver.stats = (d.resolution t).1.scope.stats :=
    ⟨rfl, rfl, rfl, rfl⟩
  -- both resolve the same agenda
  rw [hb] at hruns
  refine ⟨?_, ?_, ?_, ?_⟩
  · exact hruns.1.trans (congrArg Resolution.status hresolution)
  · exact (congrArg System.values hruns.2.1).trans hrun.system.values
  · exact hruns.2.2.1.trans (congrArg Resolution.suspended hresolution)
  · exact hruns.2.2.2.trans (hrun.scope.stats trivial)

/-! ## Models -/

namespace Model

theorem perform_sound {σ : Type} [Solver α σ] [Solver.Lawful α σ] [Scalar.Ordered α] (i : Nat) (x : Option σ)
    (actions : List (Action α σ)) :
    ((Model.new i x).perform actions).system.WellFormed ∧ ((Model.new i x).perform actions).system.Linked :=
  perform_induction (P := fun m => m.system.WellFormed ∧ m.system.Linked) (fun m a h => m.act_linked a h.1 h.2)
    ⟨System.empty_wellFormed i, System.empty_linked i⟩ actions

/-- **Disabled constraints do not interfere.**  Take two models after any histories, such that their systems agree in the
tolerance, in the values of all variables, and in the identifiers and contents of their enabled constraints.  A new solver
over Kaczmarz or force-directed relaxation, with or without conflict resolution, ends in the same way on both: with the
same status, the same values, the same suspensions, and the same counts of sweeps and projections. -/
theorem disabled_do_not_interfere [Scalar.Ordered α] (i i' : Nat) (x x' : Option (AnySolver (Engine α γ)))
    (actions actions' : List (Action α (AnySolver (Engine α γ)))) (e : Engine α γ) (he : e.choosesPivots = false)
    (reset : Bool) (strategy : Strategy) (budget : Option Nat)
    (htol : ((Model.new i' x').perform actions').system.tolerance = ((Model.new i x).perform actions).system.tolerance)
    (hvalues : ((Model.new i' x').perform actions').system.values = ((Model.new i x).perform actions).system.values)
    (henabled : ((Model.new i' x').perform actions').system.enabledSketches =
      ((Model.new i x).perform actions).system.enabledSketches) :
    let s := ((Model.new i x).perform actions).system
    let t := ((Model.new i' x').perform actions').system
    (let a := Solver.solve (DirectSolver.new e reset) s
      let b := Solver.solve (DirectSolver.new e reset) t
      b.status = a.status ∧ b.system.values = a.system.values ∧ b.solver.stats = a.solver.stats) ∧
    (let a := Solver.solve (ResolvingSolver.new strategy e reset budget) s
      let b := Solver.solve (ResolvingSolver.new strategy e reset budget) t
      b.status = a.status ∧ b.system.values = a.system.values ∧ b.solver.suspended = a.solver.suspended ∧
        b.solver.stats = a.solver.stats) := by
  intro s t
  have hs := perform_sound i x actions
  have ht := perform_sound i' x' actions'
  exact ⟨DirectSolver.new_solve_alike hs ht htol hvalues henabled he reset,
    ResolvingSolver.new_solve_alike hs ht htol hvalues henabled he strategy reset budget⟩

/-- Over binary64: the second model has a disabled constraint that contradicts the enabled one and names both variables,
where the first model had a constraint that was removed.  The force-directed relaxation passes it over. -/
theorem disabled_do_not_interfere_of_contradiction :
    let sum (i : Nat) (value : Float) (enabled : Bool) : Action Float (AnySolver (Engine Float KeyStream)) :=
      .edit (.add ⟨[⟨1, ⟨i, 0⟩⟩, ⟨1, ⟨i, 1⟩⟩], .eq, .fixed value, 1, enabled, none, none⟩)
    let m := (Model.new 0 none).perform
      [.edit (.addVariable none), .edit (.addVariable none), sum 0 4 true, sum 0 6 true, .edit (.remove ⟨1⟩)]
    let m' := (Model.new 7 none).perform
      [.edit (.addVariable none), .edit (.addVariable (some "y")), sum 7 4 true, sum 7 9 false]
    let d : ResolvingSolver (Engine Float KeyStream) := .new .removing (.forceDirected ⟨3, 0.5, 2, []⟩) false none
    m'.system.activeOf ⟨7, 1⟩ ≠ m.system.activeOf ⟨0, 1⟩ ∧
      (Solver.solve d m'.system).system.values = (Solver.solve d m.system).system.values := by
  intro sum m m' d
  have h := disabled_do_not_interfere 0 7 none none
    [.edit (.addVariable none), .edit (.addVariable none), sum 0 4 true, sum 0 6 true, .edit (.remove ⟨1⟩)]
    [.edit (.addVariable none), .edit (.addVariable (some "y")), sum 7 4 true, sum 7 9 false]
    (.forceDirected ⟨3, 0.5, 2, []⟩) rfl false .removing none (by decide +kernel) (by decide +kernel) (by decide +kernel)
  exact ⟨by decide +kernel, h.2.2.1⟩

end Model

end SoftLinear
