import SoftLinear.Proofs.Agreement
import SoftLinear.Proofs.ScalarLaws

/-!
# Searches whose verdicts are foreseen

Adding and binary search are different loops over the same three steps: a window is accepted, a window is rejected, a
constraint is suspended.  What each of these steps keeps, both searches keep (`Conflict.StepsKeep`).

The values of each attempt that ends optimally are the start of the next one, so whether a window is accepted depends on
all that was accepted before.  Sometimes the verdicts are known nevertheless: certain constraints are conflicts, a window
ends optimally exactly when there is no conflict in it, and the values stay among those expected all along
(`Conflict.Foresees`).  Then the search suspends exactly the conflicts (`Strategy.resolve_foreseen`).

That a window with a conflict fails follows if the conflict contradicts what is kept before it (`Conflict.Contradicted`):
a window may hold many constraints, but those before its first conflict are kept or tried along with it.
-/

namespace SoftLinear

section Measure

variable {α : Type} [Scalar α] [Scalar.Lawful α]

theorem Scalar.foldl_larger_lt_of_defined {β : Type} {f : β → α} {bound : α} (l : List β) {a : α}
    (ha : isNaN a = false) (hbound : a < bound) (hl : ∀ x ∈ l, isNaN (f x) = false → f x < bound) :
    l.foldl (fun acc x => larger acc (f x)) a < bound := by
  induction l generalizing a with
  | nil => exact hbound
  | cons x l ih =>
    have hx : larger a (f x) < bound := by
      unfold larger
      rw [if_neg (by simp [ha])]
      split
      · rename_i hlt
        exact hl x List.mem_cons_self (Ordered.defined_of_lt hlt).2
      · exact hbound
    exact ih (larger_defined ha) hx fun y hy => hl y (List.mem_cons_of_mem x hy)

theorem Summary.measure_lt_iff {cs : List (Constraint α)} {p : Point α} {tol : α} (htol : 0 < tol) :
    (measure cs p).max < tol ↔ ∀ c ∈ cs, Scalar.isNaN (c.error p) = false → c.isSatisfied p tol = true := by
  simp only [measure_max, Constraint.isSatisfied, decide_eq_true_eq, ← Scalar.Lawful.isNaN_abs (Constraint.error _ p)]
  exact ⟨fun h => (Scalar.lt_of_foldl_larger_lt Scalar.Ordered.zero_defined h).2,
    Scalar.foldl_larger_lt_of_defined cs Scalar.Ordered.zero_defined htol⟩

end Measure

namespace Conflict

variable {α ρ : Type} [Scalar α] [Relaxation α ρ] {base : System α} {tol : α} {budget : Nat}
  {sorted done window pending suspended conflicts : List ConstraintId} {committed : Point α}
  {r r₁ : Run α (Recorder α ρ)} {outcome : Outcome α}

/-! ## What the steps of a search keep -/

section Steps

/-- A property of a search, in terms of what was dealt with, the relaxation with its record, the values to go on from and
the suspensions, that each kind of step keeps. -/
structure StepsKeep (base : System α) (tol : α) (sorted : List ConstraintId) (budget : Nat)
    (P : List ConstraintId → Recorder α ρ → Point α → List ConstraintId → Prop) : Prop where
  accept : ∀ ⦃done window pending⦄ ⦃r r₁ : Run α (Recorder α ρ)⦄ ⦃outcome committed suspended⦄,
    sorted = done ++ window ++ pending → Searched base tol sorted done r committed suspended →
    attempt (switch r window true) sorted budget = (r₁, outcome) → P done r.engine committed suspended →
    outcome.status.isOptimal = true → P (done ++ window) r₁.engine r₁.system.values suspended
  reject : ∀ ⦃done window pending⦄ ⦃r r₁ : Run α (Recorder α ρ)⦄ ⦃outcome committed suspended⦄,
    sorted = done ++ window ++ pending → Searched base tol sorted done r committed suspended →
    attempt (switch r window true) sorted budget = (r₁, outcome) → P done r.engine committed suspended →
    ¬ outcome.status.isOptimal = true → P done r₁.engine committed suspended
  suspend : ∀ ⦃done c pending⦄ ⦃r r₁ : Run α (Recorder α ρ)⦄ ⦃outcome committed suspended⦄,
    sorted = done ++ [c] ++ pending → Searched base tol sorted done r committed suspended →
    attempt (switch r [c] true) sorted budget = (r₁, outcome) → P done r.engine committed suspended →
    ¬ outcome.status.isOptimal = true → P (done ++ [c]) r₁.engine committed (suspended ++ [c])

variable [Relaxation.Lawful α ρ] {P : List ConstraintId → Recorder α ρ → Point α → List ConstraintId → Prop}

theorem addEach_keeps (hP : StepsKeep base tol sorted budget P) (hn : sorted.Nodup) (hsplit : sorted = done ++ pending)
    (hs : Searched base tol sorted done r committed suspended) (h : P done r.engine committed suspended) :
    P sorted (addEach sorted budget pending r committed suspended).1.engine
      (addEach sorted budget pending r committed suspended).1.system.values
      (addEach sorted budget pending r committed suspended).2 := by
  fun_induction addEach sorted budget pending r committed suspended generalizing done with
  | case1 r committed suspended =>
    rw [List.append_nil] at hsplit
    rw [hs.values, hsplit]
    exact h
  | case2 id rest r committed suspended r₁ outcome ha ho ih =>
    have hsplit' : sorted = done ++ [id] ++ rest := by simp [hsplit]
    exact ih hsplit' (hs.accept hsplit' hn ha ho (.refl r₁)) (hP.accept hsplit' hs ha h ho :)
  | case3 id rest r committed suspended r₁ outcome ha ho ih =>
    have hsplit' : sorted = done ++ [id] ++ rest := by simp [hsplit]
    obtain ⟨hmarked, -, -, -, -, hsize⟩ := hs.tried hsplit' hn ha
    refine ih hsplit' (hs.suspend hsplit' hn ha ho (.refl r₁) rfl rfl ?_ ?_) (hP.suspend hsplit' hs ha h ho :)
    · exact System.values_storeValues _ hsize
    · exact (hmarked.of_rules (System.storeValues_sameRules _ committed)).suspend (by simp [hsplit])

theorem searchWindows_keeps (hP : StepsKeep base tol sorted budget P) (hn : sorted.Nodup) (others : Nat)
    (hsplit : sorted = done ++ pending) (hs : Searched base tol sorted done r committed suspended)
    (h : P done r.engine committed suspended) :
    P sorted (searchWindows sorted budget pending others r committed suspended).1.engine
      (searchWindows sorted budget pending others r committed suspended).1.system.values
      (searchWindows sorted budget pending others r committed suspended).2 := by
  fun_induction searchWindows sorted budget pending others r committed suspended generalizing done with
  | case1 others r committed suspended =>
    rw [List.append_nil] at hsplit
    rw [hs.values, hsplit]
    exact h
  | case2 others r committed suspended id rest window start r₁ outcome ha r₂ ho =>
    rename_i ih
    have hsplit' : sorted = done ++ window ++ rest.drop others := by simp [hsplit, window]
    exact ih hsplit' (hs.accept hsplit' hn ha ho (noted_window r₁ _ _ _)) (hP.accept hsplit' hs ha h ho :)
  | case3 others r committed suspended id rest window start r₁ outcome ha r₂ ho r₃ hw =>
    rename_i ih
    have hsplit' : sorted = done ++ window ++ rest.drop others := by simp [hsplit, window]
    exact ih hsplit (hs.reject hsplit' hn ha ho (noted_window r₁ _ _ _)) (hP.reject hsplit' hs ha h ho :)
  | case4 others r committed suspended id rest window start r₁ outcome ha r₂ ho r₃ hw =>
    rename_i ih
    have hone : window = [id] := window_single hw
    have hsplit' : sorted = done ++ [id] ++ rest := by simp [hsplit]
    have hnoted : Noted r₁ r₂ := noted_window r₁ _ _ _
    have hback : Searched base tol sorted done r₃ committed suspended :=
      hs.reject (hone ▸ hsplit' : sorted = done ++ window ++ rest) hn ha ho hnoted
    rw [hone] at ha
    refine ih hsplit' (hs.suspend hsplit' hn ha ho hnoted rfl rfl hback.values ?_) (hP.suspend hsplit' hs ha h ho :)
    exact (hback.marked.suspend (by simp [hsplit])).grow (by simp)

end Steps

/-! ## Verdicts -/

section Verdicts

variable {told : Trial α → Prop} {kind : ρ → Prop} {expected : Point α → Prop}

variable (ρ) in
/-- A search that has suspended the conflicts of a first part of the list fails with every window that has a conflict in
it, provided that all its attempts are as told. -/
def Refuses (base : System α) (tol : α) (sorted : List ConstraintId) (budget : Nat) (conflicts : List ConstraintId)
    (told : Trial α → Prop) : Prop :=
  ∀ ⦃done window pending⦄ ⦃r r₁ : Run α (Recorder α ρ)⦄ ⦃outcome committed⦄, sorted = done ++ window ++ pending →
    Searched base tol sorted done r committed (done.filter (· ∈ conflicts)) →
    attempt (switch r window true) sorted budget = (r₁, outcome) → (∀ t ∈ r₁.engine.trials, told t) →
    (¬ ∀ id ∈ window, id ∉ conflicts) → ¬ outcome.status.isOptimal = true

/-- **The verdicts of a search are foreseen.**  With the conflicts of a first part of the list suspended and values as
expected, its attempt with a window fails if there is a conflict in the window, and else ends optimally with values as
expected.  Its relaxation stays of a certain kind. -/
structure Foresees (base : System α) (tol : α) (sorted : List ConstraintId) (budget : Nat) (conflicts : List ConstraintId)
    (told : Trial α → Prop) (kind : ρ → Prop) (expected : Point α → Prop) : Prop where
  keeps : ∀ r : Run α ρ, kind r.engine → kind (attempt r sorted budget).1.engine
  refuses : Refuses ρ base tol sorted budget conflicts told
  accepts : ∀ ⦃done window pending⦄ ⦃r r₁ : Run α (Recorder α ρ)⦄ ⦃outcome committed⦄, sorted = done ++ window ++ pending →
    Searched base tol sorted done r committed (done.filter (· ∈ conflicts)) → kind r.engine.engine → expected committed →
    attempt (switch r window true) sorted budget = (r₁, outcome) → (∀ id ∈ window, id ∉ conflicts) →
    outcome.status.isOptimal = true ∧ expected r₁.system.values

omit [Scalar α] in
theorem kind_attempt (hkeeps : ∀ r : Run α ρ, kind r.engine → kind (attempt r sorted budget).1.engine)
    (ha : attempt (switch r window true) sorted budget = (r₁, outcome)) (hk : kind r.engine.engine) :
    kind r₁.engine.engine := by
  have hkept := hkeeps ((switch r window true).map Recorder.engine) hk
  rw [attempt_erase ha] at hkept
  exact hkept

variable [Relaxation.Lawful α ρ]

/-- As long as all goes as foreseen, just the conflicts are suspended. -/
theorem Foresees.stepsKeep (hf : Foresees base tol sorted budget conflicts told kind expected) :
    StepsKeep base tol sorted budget fun done (e : Recorder α ρ) committed suspended =>
      (∀ t ∈ e.trials, told t) → suspended = done.filter (· ∈ conflicts) ∧ kind e.engine ∧ expected committed where
  accept done window pending r r₁ outcome committed suspended hsplit hs ha h ho htold := by
    obtain ⟨rfl, hk, he⟩ := h fun t ht => htold t ((attempt_trials_grow ha).subset ht)
    have hclean : ∀ id ∈ window, id ∉ conflicts := by
      by_contra hwindow
      exact hf.refuses hsplit hs ha htold hwindow ho
    have hnone : window.filter (· ∈ conflicts) = [] := List.filter_eq_nil_iff.mpr (by simpa using hclean)
    refine ⟨?_, kind_attempt hf.keeps ha hk, (hf.accepts hsplit hs hk he ha hclean).2⟩
    rw [List.filter_append, hnone, List.append_nil]
  reject done window pending r r₁ outcome committed suspended hsplit hs ha h ho htold := by
    obtain ⟨rfl, hk, he⟩ := h fun t ht => htold t ((attempt_trials_grow ha).subset ht)
    exact ⟨rfl, kind_attempt hf.keeps ha hk, he⟩
  suspend done c pending r r₁ outcome committed suspended hsplit hs ha h ho htold := by
    obtain ⟨rfl, hk, he⟩ := h fun t ht => htold t ((attempt_trials_grow ha).subset ht)
    have hc : c ∈ conflicts := by
      by_contra hc
      exact ho (hf.accepts hsplit hs hk he ha (by simpa using hc)).1
    refine ⟨?_, kind_attempt hf.keeps ha hk, he⟩
    rw [List.filter_append, List.filter_cons_of_pos (by simpa using hc), List.filter_nil]

end Verdicts

/-! ## Contradictions -/

/-- A conflict contradicts what is kept before it: at every point one of those constraints or the conflict itself is
missed by a defined amount. -/
def Contradicted (base : System α) (tol : α) (sorted conflicts : List ConstraintId) : Prop :=
  ∀ before id after, sorted = before ++ id :: after → id ∈ conflicts → ∀ p : Point α, p.size = base.slots.size →
    ∃ other ∈ before.filter (· ∉ conflicts) ++ [id], ∃ c, base.constraint? other = some c ∧
      Scalar.isNaN (c.error p) = false ∧ c.isSatisfied p tol = false

omit [Scalar α] in
theorem Marked.liveIds_conflicts {s : System α}
    (h : Marked base sorted (done ++ window) (done.filter (· ∈ conflicts)) s) (hsplit : sorted = done ++ window ++ pending)
    (hn : sorted.Nodup) : s.liveIds sorted = done.filter (· ∉ conflicts) ++ window := by
  rw [h.liveIds_window hsplit hn (List.filter_subset_self _)]
  congr 1
  apply List.filter_congr
  intro id hid
  simp [hid]

/-- A window with a conflict that contradicts what is kept before it fails. -/
theorem Contradicted.refuses [Relaxation.Lawful α ρ] [Scalar.Lawful α] (h : Contradicted base tol sorted conflicts)
    (htol : 0 < tol) (hn : sorted.Nodup) (budget : Nat) (told : Trial α → Prop) :
    Refuses ρ base tol sorted budget conflicts told := by
  intro done window pending r r₁ outcome committed hsplit hs ha _ hwindow ho
  obtain ⟨hmarked, -⟩ := hs.tried hsplit hn ha
  have hmax := (attempt_spec ha).2.2 ho
  -- all that stands before the first conflict of the window is enabled
  obtain ⟨id, hfirst⟩ : ∃ id, window.find? (· ∈ conflicts) = some id := by
    rw [← Option.isSome_iff_exists, List.find?_isSome]
    simpa using hwindow
  obtain ⟨hid, free, rest, rfl, hfree⟩ := List.find?_eq_some_iff_append.mp hfirst
  have hsize : r₁.system.values.size = base.slots.size := by
    rw [System.size_values]
    exact hmarked.outline.slots_size
  obtain ⟨other, hother, c, hc, hdefined, hmissed⟩ :=
    h (done ++ free) id (rest ++ pending) (by simp [hsplit]) (by simpa using hid) r₁.system.values hsize
  have hlive : other ∈ r₁.system.liveIds sorted := by
    rw [hmarked.liveIds_conflicts hsplit hn]
    simp only [List.filter_append, List.mem_append, List.mem_filter, List.mem_cons] at hother ⊢
    tauto
  obtain ⟨x, hx, rfl⟩ := List.mem_map.mp hlive
  -- flags and pivots apart, the constraint is the one that the search began with
  obtain ⟨c', hc', hbare⟩ := hmarked.outline.exists_constraint? (System.mem_live.mp hx).2.1
  obtain rfl : c' = c := Option.some.inj (hc'.symm.trans hc)
  have herror : ∀ p, x.2.error p = c'.error p := fun p =>
    (congrArg (fun y : Constraint α => y.error p) hbare :)
  rw [show (switch r _ true).scope.tolerance = tol from hs.tolerance] at hmax
  have hmet := (Summary.measure_lt_iff htol).mp hmax x.2 (List.mem_map.mpr ⟨x, hx, rfl⟩) (by rwa [herror])
  rw [Constraint.isSatisfied, herror, ← Constraint.isSatisfied, hmissed] at hmet
  cases hmet

end Conflict

namespace Strategy

open Conflict

variable {α ρ : Type} [Scalar α] [Relaxation α ρ] [Relaxation.Lawful α ρ] {strategy : Strategy} {r : Run α ρ}
  {sorted : List ConstraintId} {budget : Nat}

/-- **What each kind of step keeps, a search keeps.** -/
theorem resolve_keeps (hstrategy : strategy ≠ .removing) (hn : sorted.Nodup)
    (henabled : ∀ id ∈ sorted, r.system.flag? id = some true) (htol : 0 < r.scope.tolerance)
    {P : List ConstraintId → Recorder α ρ → Point α → List ConstraintId → Prop}
    (hP : StepsKeep r.system r.scope.tolerance sorted budget P) (h : P [] ⟨r.engine, sorted, []⟩ r.system.values []) :
    ∃ e : Recorder α ρ, e.trials = strategy.trials r sorted budget ∧ e.engine = (strategy.resolve r sorted budget).1.engine ∧
      P sorted e (strategy.resolve r sorted budget).1.system.values (strategy.resolve r sorted budget).2.suspended := by
  have hstart := searched_start (r := r.map (Recorder.watch (α := α) sorted)) henabled htol rfl rfl
  have hvalues : (switch (r.map (Recorder.watch (α := α) sorted)) sorted false).system.values = r.system.values :=
    r.system.values_setEnabledAll sorted false
  have herase := strategy.resolve_erase (r.map (Recorder.watch (α := α) sorted)) sorted budget
  rw [show (r.map (Recorder.watch (α := α) sorted)).map Recorder.engine = r from rfl] at herase
  rw [herase]
  refine ⟨_, rfl, rfl, ?_⟩
  cases strategy with
  | adding => exact addEach_keeps hP hn (List.nil_append sorted).symm hstart (hvalues.symm ▸ h)
  | removing => exact absurd rfl hstrategy
  | binarySearch => exact searchWindows_keeps hP hn 0 (List.nil_append sorted).symm hstart (hvalues.symm ▸ h)

/-- **A search whose verdicts are foreseen suspends exactly the conflicts**, in the order of the list. -/
theorem resolve_foreseen (hstrategy : strategy ≠ .removing) (hn : sorted.Nodup)
    (henabled : ∀ id ∈ sorted, r.system.flag? id = some true) (htol : 0 < r.scope.tolerance)
    {conflicts : List ConstraintId} {told : Trial α → Prop} {kind : ρ → Prop} {expected : Point α → Prop}
    (hf : Foresees r.system r.scope.tolerance sorted budget conflicts told kind expected) (hk : kind r.engine)
    (he : expected r.system.values) (htold : ∀ t ∈ strategy.trials r sorted budget, told t) :
    (strategy.resolve r sorted budget).2.suspended = sorted.filter (· ∈ conflicts) ∧
      expected (strategy.resolve r sorted budget).1.system.values := by
  obtain ⟨e, htrials, -, hend⟩ := resolve_keeps hstrategy hn henabled htol hf.stepsKeep fun _ => ⟨rfl, hk, he⟩
  obtain ⟨hsuspended, -, hexpected⟩ := hend fun t ht => htold t (htrials ▸ ht)
  exact ⟨hsuspended, hexpected⟩

end Strategy

end SoftLinear
