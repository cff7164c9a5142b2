import SoftLinear.Proofs.CheckedSelection

/-!
# Checked solves

Strategies and solvers on top of the checked sweeps and selections.  Of their own they access only lists: a search cuts the
window out of the list from a position and a width, and takes the constraint to suspend from the window.  A window without
constraints would be tried forever, so it counts as a failure too (`Conflict.searchWindowsChecked`).

All that a solve needs of the system is that it is well-formed, and every step of a strategy leaves it so.  Nothing is asked
of what the solver kept from earlier: a list that was prepared, pivot entries and suspensions may be of any age.  So no solve
goes out of range after any history (`Model.solve_in_range`).
-/

namespace SoftLinear

variable {α γ : Type} [Scalar α] [Generator γ]

/-! ## Engines -/

def GaussSeidel.prepareChecked (r : Run α (GaussSeidel α γ)) (ids : List ConstraintId) :
    Option (Run α (GaussSeidel α γ)) := do
  let (selection, selector) ← r.engine.selector.selectChecked r.system ids r.system.attached none
  return {
    engine := { r.engine with
      selector := selector
      prepared := ids
      entries := selection.entries
      pendingSelection := some (PivotEntry.duplicates selection.entries) }
    system := PivotEntry.apply selection.entries r.system
    scope := r.scope.report (selector.event selection) }

namespace Engine

/-- Installs the list of constraints to sweep over; only a selection of pivots has anything to access. -/
def prepareChecked (r : Run α (Engine α γ)) (ids : List ConstraintId) : Option (Run α (Engine α γ)) :=
  match r.engine with
  | gaussSeidel g => (GaussSeidel.prepareChecked (r.map fun _ => g) ids).map (Run.map gaussSeidel)
  | _ => some (Relaxation.prepare r ids)

theorem prepareChecked_eq [Generator.Ranged γ] (r : Run α (Engine α γ)) (ids : List ConstraintId) :
    prepareChecked r ids = some (Relaxation.prepare r ids) := by
  obtain ⟨e, s, scope⟩ := r
  cases e with
  | kaczmarz k => rfl
  | gaussSeidel g =>
    simp only [prepareChecked, GaussSeidel.prepareChecked, Run.map, Selector.selectChecked_eq]
    rfl
  | forceDirected f => rfl

end Engine

/-! ## Strategies -/

namespace Conflict

def attemptChecked (r : Run α (Engine α γ)) (sorted : List ConstraintId) (budget : Nat) :
    Option (Run α (Engine α γ) × Outcome α) := do
  Engine.relaxChecked (← Engine.prepareChecked r (r.system.liveIds sorted)) budget

def addEachChecked (sorted : List ConstraintId) (budget : Nat) : List ConstraintId → Run α (Engine α γ) → Point α →
    List ConstraintId → Option (Run α (Engine α γ) × List ConstraintId)
  | [], r, _, suspended => some (r, suspended)
  | id :: rest, r, committed, suspended => do
    let (r, outcome) ← attemptChecked (switch r [id] true) sorted budget
    if outcome.status.isOptimal then addEachChecked sorted budget rest r r.system.values suspended
    else addEachChecked sorted budget rest (suspend (restore r committed) id) committed (suspended ++ [id])

def removeRoundsChecked (sorted : List ConstraintId) (budget : Nat) :
    Nat → Run α (Engine α γ) → List ConstraintId → Option (Run α (Engine α γ) × Resolution)
  | 0, r, suspended => do
    let (r, outcome) ← attemptChecked r sorted budget
    return settle r suspended outcome.status
  | rounds + 1, r, suspended => do
    let (r, outcome) ← attemptChecked r sorted budget
    if outcome.status.isOptimal then return settle r suspended outcome.status
    else match victim? r sorted outcome.residuals with
      | some id => removeRoundsChecked sorted budget rounds (suspend r id) (suspended ++ [id])
      | none => return settle r suspended outcome.status

/-- Tries windows of a width from a position on.  Success goes on behind the window and doubles the width, failure halves
it. -/
def searchWindowsChecked (sorted : List ConstraintId) (budget start width : Nat) (r : Run α (Engine α γ))
    (committed : Point α) (suspended : List ConstraintId) : Option (Run α (Engine α γ) × List ConstraintId) :=
  if start < sorted.length then
    let stop := min (start + width) sorted.length
    match _hwindow : sliceChecked sorted start stop with
    | some window =>
      if 0 < window.length then do
        let (r, outcome) ← attemptChecked (switch r window true) sorted budget
        let r := { r with scope := r.scope.report (.windowTried start stop outcome.status) }
        if outcome.status.isOptimal then
          searchWindowsChecked sorted budget stop (2 * width) r r.system.values suspended
        else
          let r := restore (switch r window false) committed
          if 1 < window.length then
            searchWindowsChecked sorted budget start (window.length / 2) r committed suspended
          else do
            let id ← window[0]?
            searchWindowsChecked sorted budget (start + 1) 1 (suspend r id) committed (suspended ++ [id])
      else none
    | none => none
  else some (r, suspended)
termination_by (sorted.length - start, width)
decreasing_by
  · have hlength := length_of_sliceChecked _hwindow
    exact Prod.Lex.left _ _ (by omega)
  · have hlength : window.length ≤ width := by
      rw [length_of_sliceChecked _hwindow]
      exact Nat.sub_le_iff_le_add'.mpr (Nat.min_le_left _ _)
    exact Prod.Lex.right _ (by omega)
  · exact Prod.Lex.left _ _ (by omega)

def resolveChecked (strategy : Strategy) (r : Run α (Engine α γ)) (sorted : List ConstraintId) (budget : Nat) :
    Option (Run α (Engine α γ) × Resolution) :=
  match strategy with
  | .adding => do
    let r := switch r sorted false
    let (r, suspended) ← addEachChecked sorted budget sorted r r.system.values []
    return settle r suspended .optimal
  | .removing => removeRoundsChecked sorted budget sorted.length r []
  | .binarySearch => do
    let r := switch r sorted false
    let (r, suspended) ← searchWindowsChecked sorted budget 0 1 r r.system.values []
    return settle r suspended .optimal

variable [Scalar.NullWeight α] [Generator.Ranged γ] {r : Run α (Engine α γ)} {sorted : List ConstraintId} {budget : Nat}

theorem attemptChecked_eq (hs : r.system.WellFormed) (sorted : List ConstraintId) (budget : Nat) :
    attemptChecked r sorted budget = some (attempt r sorted budget) := by
  have hprepared : (Relaxation.prepare r (r.system.liveIds sorted)).system.WellFormed :=
    (Engine.prepare_rules r _).toSameOutline.wellFormed hs
  rw [attemptChecked, Engine.prepareChecked_eq, Option.bind_eq_bind, Option.bind_some, Engine.relaxChecked_eq hprepared]
  rfl

omit [Generator γ] [Scalar.NullWeight α] [Generator.Ranged γ] in
theorem wellFormed_switch (hs : r.system.WellFormed) (ids : List ConstraintId) (enabled : Bool) :
    (switch r ids enabled).system.WellFormed :=
  (System.setEnabledAll_sameOutline r.system ids enabled).wellFormed hs

omit [Generator γ] [Scalar.NullWeight α] [Generator.Ranged γ] in
theorem wellFormed_restore (hs : r.system.WellFormed) (p : Point α) : (restore r p).system.WellFormed :=
  (System.storeValues_sameRules r.system p).toSameOutline.wellFormed hs

omit [Scalar.NullWeight α] [Generator.Ranged γ] in
theorem wellFormed_attempt (hs : r.system.WellFormed) {r' : Run α (Engine α γ)} {outcome : Outcome α}
    (h : attempt r sorted budget = (r', outcome)) : r'.system.WellFormed := by
  have hrules := attempt_rules r sorted budget
  rw [h] at hrules
  exact hrules.toSameOutline.wellFormed hs

theorem addEachChecked_eq (hs : r.system.WellFormed) (pending : List ConstraintId) (committed : Point α)
    (suspended : List ConstraintId) : addEachChecked sorted budget pending r committed suspended =
      some (addEach sorted budget pending r committed suspended) := by
  fun_induction addEach sorted budget pending r committed suspended with
  | case1 r committed suspended => rfl
  | case2 id rest r committed suspended r₁ outcome ha ho ih =>
    have hon := wellFormed_switch hs [id] true
    simp only [addEachChecked, attemptChecked_eq hon, ha, ho, if_true, Option.bind_eq_bind, Option.bind_some]
    exact ih (wellFormed_attempt hon ha)
  | case3 id rest r committed suspended r₁ outcome ha ho ih =>
    have hon := wellFormed_switch hs [id] true
    simp only [addEachChecked, attemptChecked_eq hon, ha, ho, Option.bind_eq_bind, Option.bind_some]
    exact ih (wellFormed_switch (wellFormed_restore (wellFormed_attempt hon ha) committed) [id] false)

theorem removeRoundsChecked_eq (hs : r.system.WellFormed) (rounds : Nat) (suspended : List ConstraintId) :
    removeRoundsChecked sorted budget rounds r suspended = some (removeRounds sorted budget rounds r suspended) := by
  induction rounds generalizing r suspended with
  | zero =>
    rw [removeRoundsChecked, removeRounds]
    simp only [attemptChecked_eq hs, Option.bind_eq_bind, Option.bind_some]
    split
    · rfl
    · cases victim? (attempt r sorted budget).1 sorted (attempt r sorted budget).2.residuals <;> rfl
  | succ rounds ih =>
    have hattempt : (attempt r sorted budget).1.system.WellFormed := wellFormed_attempt hs rfl
    rw [removeRoundsChecked, removeRounds]
    simp only [attemptChecked_eq hs, Option.bind_eq_bind, Option.bind_some]
    split
    · rfl
    · cases victim? (attempt r sorted budget).1 sorted (attempt r sorted budget).2.residuals with
      | none => rfl
      | some id =>
        have hnext : (suspend (attempt r sorted budget).1 id).system.WellFormed := wellFormed_switch hattempt [id] false
        exact ih hnext (suspended ++ [id])

theorem slice_window {pending : List ConstraintId} {start : Nat} (hstart : sorted.drop start = pending)
    (hlt : start < sorted.length) (width : Nat) :
    sliceChecked sorted start (min (start + width) sorted.length) = some (pending.take width) := by
  rw [sliceChecked, if_pos (by omega), hstart]
  have hlength : pending.length = sorted.length - start := by rw [← hstart, List.length_drop]
  congr 1
  rw [List.take_eq_take_iff]
  omega

omit [Scalar α] [Generator γ] [Scalar.NullWeight α] [Generator.Ranged γ] in
theorem start_of_drop {start : Nat} {id : ConstraintId} {rest : List ConstraintId}
    (hstart : sorted.drop start = id :: rest) :
    (id :: rest).length ≤ sorted.length ∧ start = sorted.length - (id :: rest).length := by
  have hlength : sorted.length - start = (id :: rest).length := by rw [← hstart, List.length_drop]
  rw [List.length_cons] at hlength ⊢
  omega

/-- One round of a checked search: the window is there, and so is the constraint to suspend. -/
theorem searchWindowsChecked_cons (hs : r.system.WellFormed) {id : ConstraintId} {rest : List ConstraintId} {start : Nat}
    (hstart : sorted.drop start = id :: rest) {others : Nat} {committed : Point α} {suspended : List ConstraintId}
    {r₁ : Run α (Engine α γ)} {outcome : Outcome α}
    (ha : attempt (switch r (id :: rest.take others) true) sorted budget = (r₁, outcome)) :
    let window := id :: rest.take others
    let r₂ := { r₁ with scope := r₁.scope.report (.windowTried start (start + window.length) outcome.status) }
    let r₃ := restore (switch r₂ window false) committed
    searchWindowsChecked sorted budget start (others + 1) r committed suspended =
      if outcome.status.isOptimal then
        searchWindowsChecked sorted budget (start + window.length) (2 * (others + 1)) r₂ r₂.system.values suspended
      else if 1 < window.length then
        searchWindowsChecked sorted budget start (window.length / 2) r₃ committed suspended
      else searchWindowsChecked sorted budget (start + 1) 1 (suspend r₃ id) committed (suspended ++ [id]) := by
  intro window r₂ r₃
  obtain ⟨hrest, hat⟩ := start_of_drop hstart
  rw [List.length_cons] at hrest hat
  have hlt : start < sorted.length := by omega
  have hstop : min (start + (others + 1)) sorted.length = start + window.length := by
    simp only [window, List.length_cons, List.length_take]
    omega
  have hslice : sliceChecked sorted start (min (start + (others + 1)) sorted.length) = some window :=
    slice_window hstart hlt (others + 1)
  rw [searchWindowsChecked, if_pos hlt]
  dsimp only
  split
  · rename_i w hw
    obtain rfl := Option.some.inj (hslice.symm.trans hw)
    have hpos : 0 < window.length := Nat.succ_pos _
    rw [if_pos hpos, attemptChecked_eq (wellFormed_switch hs window true), ha, hstop]
    rfl
  · rename_i hw
    rw [hslice] at hw
    cases hw

/-- The window is one wider than the number of constraints to try after the next one. -/
theorem searchWindowsChecked_eq (hs : r.system.WellFormed) {pending : List ConstraintId} {first : Nat}
    (hfirst : sorted.drop first = pending) (others : Nat) (committed : Point α) (suspended : List ConstraintId) :
    searchWindowsChecked sorted budget first (others + 1) r committed suspended =
      some (searchWindows sorted budget pending others r committed suspended) := by
  fun_induction searchWindows sorted budget pending others r committed suspended generalizing first with
  | case1 others r committed suspended =>
    have hend : ¬ first < sorted.length := by
      rw [List.drop_eq_nil_iff] at hfirst
      omega
    rw [searchWindowsChecked, if_neg hend]
  | case2 others r committed suspended id rest window start r₁ outcome ha r₂ ho =>
    rename_i ih
    obtain ⟨-, rfl⟩ := start_of_drop hfirst
    have hnext : sorted.drop (start + window.length) = rest.drop others := by
      rw [← List.drop_drop, hfirst]
      simp [window]
    have hr₁ : r₁.system.WellFormed := wellFormed_attempt (wellFormed_switch hs window true) ha
    rw [searchWindowsChecked_cons hs hfirst ha, if_pos ho]
    exact ih hr₁ hnext
  | case3 others r committed suspended id rest window start r₁ outcome ha r₂ ho r₃ hwide =>
    rename_i ih
    obtain ⟨-, rfl⟩ := start_of_drop hfirst
    have hr₁ : r₁.system.WellFormed := wellFormed_attempt (wellFormed_switch hs window true) ha
    -- half of a window that has more than one member is not empty
    have hwidth : window.length / 2 - 1 + 1 = window.length / 2 := by omega
    rw [searchWindowsChecked_cons hs hfirst ha, if_neg ho, if_pos hwide, ← hwidth]
    exact ih (wellFormed_restore (wellFormed_switch hr₁ window false) committed) hfirst
  | case4 others r committed suspended id rest window start r₁ outcome ha r₂ ho r₃ hwide =>
    rename_i ih
    obtain ⟨-, rfl⟩ := start_of_drop hfirst
    have hr₁ : r₁.system.WellFormed := wellFormed_attempt (wellFormed_switch hs window true) ha
    have hr₃ : r₃.system.WellFormed := wellFormed_restore (wellFormed_switch hr₁ window false) committed
    have hnext : sorted.drop (start + 1) = rest := by
      rw [← List.drop_drop, hfirst]
      rfl
    rw [searchWindowsChecked_cons hs hfirst ha, if_neg ho, if_neg hwide]
    exact ih (wellFormed_switch hr₃ [id] false) hnext

/-- **Every strategy runs through on a well-formed system.** -/
theorem resolveChecked_eq (strategy : Strategy) (hs : r.system.WellFormed) (sorted : List ConstraintId) (budget : Nat) :
    resolveChecked strategy r sorted budget = some (strategy.resolve r sorted budget) := by
  have hoff := wellFormed_switch hs sorted false
  cases strategy with
  | adding =>
    simp only [resolveChecked, addEachChecked_eq hoff, Option.bind_eq_bind, Option.bind_some]
    rfl
  | removing => exact removeRoundsChecked_eq hs sorted.length []
  | binarySearch =>
    have hsearch : ∀ p, searchWindowsChecked sorted budget 0 1 (switch r sorted false) p [] =
        some (searchWindows sorted budget sorted 0 (switch r sorted false) p []) :=
      fun p => searchWindowsChecked_eq hoff List.drop_zero 0 p []
    simp only [resolveChecked, hsearch, Option.bind_eq_bind, Option.bind_some]
    rfl

end Conflict

/-! ## Solvers -/

namespace DirectSolver

def readyChecked (d : DirectSolver (Engine α γ)) (r : Run α (Engine α γ)) (enabled : List ConstraintId) :
    Option (Run α (Engine α γ)) :=
  if d.prepared = some enabled then some r else Engine.prepareChecked r enabled

def solveChecked (d : DirectSolver (Engine α γ)) (s : System α) : Option (Attempt α (DirectSolver (Engine α γ))) := do
  let s := s.seed d.reset
  let enabled := s.enabledIds
  let r ← d.readyChecked ⟨d.engine, s, { tolerance := s.tolerance }⟩ enabled
  let started : Event α := .solveStarted "Relaxation" none (Relaxation.name r.engine) r.system.order.length
    r.system.attached.length
  let (r, outcome) ← Engine.relaxChecked { r with scope := r.scope.report started } (Relaxation.budget r.engine)
  let scope := r.scope.report
    (.relaxationSolved "Relaxation" outcome.status outcome.sweeps outcome.maxError r.scope.stats.projections)
  return {
    status := outcome.status
    solver := { d with engine := r.engine, prepared := some enabled, stats := scope.stats }
    system := r.system
    log := scope.log }

variable [Generator.Ranged γ]

theorem readyChecked_eq (d : DirectSolver (Engine α γ)) (r : Run α (Engine α γ)) (enabled : List ConstraintId) :
    d.readyChecked r enabled = some (d.ready r enabled) := by
  unfold readyChecked ready
  split
  · rfl
  · exact Engine.prepareChecked_eq r enabled

theorem solveChecked_eq [Scalar.NullWeight α] (d : DirectSolver (Engine α γ)) {s : System α} (hs : s.WellFormed) :
    d.solveChecked s = some (Solver.solve d s) := by
  have htask : (d.task s).system.WellFormed := (d.task_rules s).toSameOutline.wellFormed hs
  have hrelax := Engine.relaxChecked_eq htask (Relaxation.budget (d.task s).engine)
  unfold task at hrelax
  simp only [solveChecked, readyChecked_eq, Option.bind_eq_bind, Option.bind_some, hrelax]
  rfl

end DirectSolver

namespace ResolvingSolver

def solveChecked (d : ResolvingSolver (Engine α γ)) (s : System α) :
    Option (Attempt α (ResolvingSolver (Engine α γ))) := do
  let s := d.lift s
  let sorted := s.sortByPriority s.enabledIds
  let budget := d.budget.getD (Relaxation.budget d.engine)
  let scope : Scope α := { tolerance := s.tolerance }
  let scope := scope.report (.solveStarted "ConflictResolving" (some d.strategy.name) (Relaxation.name d.engine)
    sorted.length s.attached.length)
  let (r, resolution) ← Conflict.resolveChecked d.strategy ⟨d.engine, s, scope⟩ sorted budget
  let scope := r.scope.report (.conflictsResolved "ConflictResolving" resolution.status resolution.suspended.length
    r.scope.stats.relaxCalls r.scope.stats.sweeps)
  return {
    status := resolution.status
    solver := { d with engine := r.engine, suspended := resolution.suspended, stats := scope.stats }
    system := r.system
    log := scope.log }

theorem solveChecked_eq [Generator.Ranged γ] [Scalar.NullWeight α] (d : ResolvingSolver (Engine α γ)) {s : System α}
    (hs : s.WellFormed) : d.solveChecked s = some (Solver.solve d s) := by
  have htask : (d.task s).system.WellFormed := (d.lift_sameOutline s).wellFormed hs
  have hresolve := Conflict.resolveChecked_eq d.strategy htask (d.agenda s) (d.budget.getD (Relaxation.budget d.engine))
  unfold task agenda at hresolve
  simp only [solveChecked, hresolve, Option.bind_eq_bind, Option.bind_some]
  rfl

end ResolvingSolver

namespace AnySolver

def solveChecked (x : AnySolver (Engine α γ)) (s : System α) : Option (Attempt α (AnySolver (Engine α γ))) :=
  match x with
  | direct d => (d.solveChecked s).map (Attempt.map direct)
  | resolving d => (d.solveChecked s).map (Attempt.map resolving)

theorem solveChecked_eq [Generator.Ranged γ] [Scalar.NullWeight α] (x : AnySolver (Engine α γ)) {s : System α}
    (hs : s.WellFormed) : x.solveChecked s = some (Solver.solve x s) := by
  cases x with
  | direct d =>
    rw [solveChecked, d.solveChecked_eq hs]
    rfl
  | resolving d =>
    rw [solveChecked, d.solveChecked_eq hs]
    rfl

/-- A system that is not well-formed is found out: here a constraint names a variable that has no slot. -/
example :
    let s : System Float := { System.empty 0 with
      constraints := #[some ⟨[⟨1, ⟨0, 0⟩⟩], .eq, .fixed 4, 1, true, none, none⟩]
      order := [⟨0⟩] }
    let x : AnySolver (Engine Float KeyStream) := .direct (.new (.kaczmarz ⟨2, 1, 1, []⟩) false)
    (x.solveChecked s).isNone = true := by decide +kernel

end AnySolver

namespace Model

/-- Solves the system; without a solver there is nothing to access. -/
def solveChecked (m : Model α (AnySolver (Engine α γ))) :
    Option (Model α (AnySolver (Engine α γ)) × Status × Array (Event α)) :=
  match m.solver with
  | some x => do
    let a ← x.solveChecked m.system
    return (⟨a.system, some a.solver, some a.status⟩, a.status, a.log)
  | none => some ({ m with lastStatus := some .error }, .error, #[.solveSkipped])

/-- **No solve goes out of range.**  Take any history of a model: edits, solves, flags that the solver does not hear of,
and solvers installed in any state, over any relaxation, selector and strategy, with a generator that draws indices below
the bound it is given.  The checked solve of the model then runs through: each value is there at the position that a
constraint or a pivot entry asks for, each term, entry, window and place of a table is there where a selector or a strategy
asks for it, no draw is from nothing and no count falls below zero.  Its result is that of the solve. -/
theorem solve_in_range [Generator.Ranged γ] [Scalar.Ordered α] [Scalar.NullWeight α] (i : Nat)
    (x₀ : Option (AnySolver (Engine α γ))) (actions : List (Action α (AnySolver (Engine α γ)))) :
    ((Model.new i x₀).perform actions).solveChecked = some ((Model.new i x₀).perform actions).solve := by
  have hs : ((Model.new i x₀).perform actions).system.WellFormed := (perform_sound i x₀ actions).1
  unfold solveChecked solve
  cases ((Model.new i x₀).perform actions).solver with
  | none => rfl
  | some x =>
    simp only [x.solveChecked_eq hs, Option.bind_eq_bind, Option.bind_some]
    rfl

/-- Over binary64, a search over Gauss–Seidel with spread pivots solves a system, a constraint is removed, and another solver
is installed: it holds itself to be prepared, but its entries name a constraint that is gone and a variable that never was.
Both solves run through. -/
theorem solve_in_range_of_stale_entries :
    let entries : List PivotEntry := [.primary ⟨0⟩ ⟨0, 1⟩, .primary ⟨1⟩ ⟨0, 9⟩, .primary ⟨1⟩ ⟨0, 0⟩]
    let searching : AnySolver (Engine Float KeyStream) :=
      .resolving (.new .binarySearch (.gaussSeidel ⟨.twoPhase (.ofSeed 7) 3, 2, 1, [], [], none⟩) false none)
    let stale : AnySolver (Engine Float KeyStream) :=
      .direct ⟨.gaussSeidel ⟨.uniform (.ofSeed 7) 8, 2, 1, [⟨1⟩], entries, none⟩, false, some [⟨1⟩], {}⟩
    let actions : List (Action Float (AnySolver (Engine Float KeyStream))) :=
      [.edit (.addVariable none), .edit (.addVariable none),
        .edit (.add ⟨[⟨5, ⟨0, 1⟩⟩], .eq, .fixed 1, 1, true, none, none⟩),
        .edit (.add ⟨[⟨3, ⟨0, 0⟩⟩, ⟨1, ⟨0, 1⟩⟩], .eq, .fixed 4, 1, true, none, none⟩), .install searching]
    let m := (Model.new 0 none).perform actions
    let n := (Model.new 0 none).perform (actions ++ [.edit .solve, .edit (.remove ⟨0⟩), .install stale])
    m.solveChecked = some m.solve ∧ (n.solveChecked.any fun result => result.2.1 = .optimal) = true := by
  intro entries searching stale actions m n
  have hn : n.solveChecked = some n.solve :=
    solve_in_range 0 none (actions ++ [.edit .solve, .edit (.remove ⟨0⟩), .install stale])
  have hstatus : n.solve.2.1 = .optimal := by decide +kernel
  refine ⟨solve_in_range 0 none actions, ?_⟩
  rw [hn, Option.any_some, hstatus]
  rfl

end Model

end SoftLinear
