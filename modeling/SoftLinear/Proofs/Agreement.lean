import Mathlib.Data.Finset.Dedup
import SoftLinear.Proofs.Search

/-!
# Two searches with one result

Adding takes up the constraints of a list one at a time, binary search takes up whole windows of them.  Where it depends
on the set of enabled constraints alone whether an attempt ends optimally, and fewer constraints are never harder, both
come to what one greedy pass over the list comes to (`Conflict.sift`):

* a window that ends optimally would have been kept constraint by constraint (`sift_window`), since every part of it ends
  optimally too;
* a window that fails tells nothing until it is a single constraint, which the greedy pass refuses as well.

The list may name constraints that are disabled or no longer exist: `Conflict.Holding` says which flags are set.
-/

namespace SoftLinear

namespace Conflict

/-! ## The greedy pass -/

section Sift

/-- One step of a greedy pass: a constraint is kept if what was kept stays good with it, and else it is refused. -/
def siftStep (good : List ConstraintId → Bool) (acc : List ConstraintId × List ConstraintId) (id : ConstraintId) :
    List ConstraintId × List ConstraintId :=
  if good (acc.1 ++ [id]) then (acc.1 ++ [id], acc.2) else (acc.1, acc.2 ++ [id])

/-- What a greedy pass over a list keeps and what it refuses. -/
def sift (good : List ConstraintId → Bool) (kept refused pending : List ConstraintId) :
    List ConstraintId × List ConstraintId :=
  pending.foldl (siftStep good) (kept, refused)

variable {good : List ConstraintId → Bool} {kept refused rest : List ConstraintId} {id : ConstraintId}

theorem sift_keep (h : good (kept ++ [id]) = true) :
    sift good kept refused (id :: rest) = sift good (kept ++ [id]) refused rest := by
  simp [sift, siftStep, h]

theorem sift_refuse (h : good (kept ++ [id]) = false) :
    sift good kept refused (id :: rest) = sift good kept (refused ++ [id]) rest := by
  simp [sift, siftStep, h]

theorem sift_window (hdown : ∀ l l', l ⊆ l' → good l' = true → good l = true) {window : List ConstraintId}
    (h : good (kept ++ window) = true) :
    sift good kept refused (window ++ rest) = sift good (kept ++ window) refused rest := by
  induction window generalizing kept with
  | nil => rw [List.append_nil, List.nil_append]
  | cons id window ih =>
    have hid : good (kept ++ [id]) = true := by
      apply hdown _ _ _ h
      intro x hx
      rcases List.mem_append.mp hx with hx | hx
      · exact List.mem_append_left _ hx
      · exact List.mem_append_right _ (by simp [List.mem_singleton.mp hx])
    have hwindow : good ((kept ++ [id]) ++ window) = true := by rwa [List.append_assoc]
    rw [List.cons_append, sift_keep hid, ih hwindow, List.append_assoc, List.singleton_append]

end Sift

/-! ## Flags -/

section Flags

variable {α : Type} {base s t : System α} {sorted kept window : List ConstraintId}

/-- Of the list, exactly the constraints that are kept are enabled, as far as they exist; other flags are as before. -/
structure Holding (base : System α) (sorted kept : List ConstraintId) (s : System α) : Prop where
  outline : base.SameOutline s
  flags : ∀ id, s.flag? id =
    if id ∈ sorted then (base.flag? id).map (fun _ => decide (id ∈ kept)) else base.flag? id

theorem holding_none (base : System α) (sorted : List ConstraintId) :
    Holding base sorted [] (base.setEnabledAll sorted false) where
  outline := base.setEnabledAll_sameOutline sorted false
  flags id := by
    rw [System.flag?_setEnabledAll]
    simp

theorem Holding.of_rules (h : Holding base sorted kept s) (ht : s.SameRules t) : Holding base sorted kept t :=
  ⟨h.outline.trans ht.toSameOutline, fun id => (ht.flags id).trans (h.flags id)⟩

theorem Holding.enable (h : Holding base sorted kept s) (hw : window ⊆ sorted) :
    Holding base sorted (kept ++ window) (s.setEnabledAll window true) where
  outline := h.outline.trans (s.setEnabledAll_sameOutline window true)
  flags id := by
    rw [System.flag?_setEnabledAll, h.flags]
    by_cases hid : id ∈ window
    · simp [hid, hw hid, Function.comp_def]
    · simp [hid]

/-- Disabling constraints that are not kept leaves what is kept. -/
theorem Holding.disable (h : Holding base sorted (kept ++ window) s) (off : List ConstraintId) (hoff : window ⊆ off)
    (hsub : off ⊆ sorted) (hnew : ∀ id ∈ off, id ∉ kept) :
    Holding base sorted kept (s.setEnabledAll off false) where
  outline := h.outline.trans (s.setEnabledAll_sameOutline off false)
  flags id := by
    rw [System.flag?_setEnabledAll, h.flags]
    by_cases hid : id ∈ off
    · simp [hid, hsub hid, hnew id hid, Function.comp_def]
    · have hout : id ∉ window := fun hw => hid (hoff hw)
      simp [hid, hout]

/-- The constraints of the list that exist and are kept. -/
def present (base : System α) (sorted kept : List ConstraintId) : Finset ConstraintId :=
  (sorted.filter fun id => (base.flag? id).isSome && decide (id ∈ kept)).toFinset

theorem present_mono {kept' : List ConstraintId} (h : kept ⊆ kept') :
    present base sorted kept ⊆ present base sorted kept' := by
  intro id hid
  simp only [present, List.mem_toFinset, List.mem_filter, Bool.and_eq_true, decide_eq_true_eq] at hid ⊢
  exact ⟨hid.1, hid.2.1, h hid.2.2⟩

theorem Holding.toFinset_liveIds (h : Holding base sorted kept s) :
    (s.liveIds sorted).toFinset = present base sorted kept := by
  rw [present, System.liveIds_eq_filter]
  congr 1
  apply List.filter_congr
  intro id hid
  rw [h.flags, if_pos hid]
  cases base.flag? id <;> simp

end Flags

/-! ## The records only grow -/

section Search

variable {α ρ : Type} [Scalar α] [Relaxation α ρ] [Relaxation.KeepsRules α ρ] {base : System α} {budget : Nat}
  {sorted kept window rest pending suspended : List ConstraintId} {committed : Point α} {r r₁ : Run α (Recorder α ρ)}
  {outcome : Outcome α} {good : Finset ConstraintId → Bool}

omit [Scalar α] in
theorem attempt_trials_grow (ha : attempt (switch r window true) sorted budget = (r₁, outcome)) :
    r.engine.trials <+: r₁.engine.trials := by
  rw [(attempt_trials ha).2]
  exact List.prefix_append _ _

theorem addEach_trials_grow (pending : List ConstraintId) (r : Run α (Recorder α ρ)) (committed : Point α)
    (suspended : List ConstraintId) :
    r.engine.trials <+: (addEach sorted budget pending r committed suspended).1.engine.trials := by
  fun_induction addEach sorted budget pending r committed suspended with
  | case1 => exact List.prefix_refl _
  | case2 id rest r committed suspended r₁ outcome ha ho ih => exact (attempt_trials_grow ha).trans ih
  | case3 id rest r committed suspended r₁ outcome ha ho ih => exact (attempt_trials_grow ha).trans ih

theorem searchWindows_trials_grow (pending : List ConstraintId) (others : Nat) (r : Run α (Recorder α ρ))
    (committed : Point α) (suspended : List ConstraintId) :
    r.engine.trials <+: (searchWindows sorted budget pending others r committed suspended).1.engine.trials := by
  fun_induction searchWindows sorted budget pending others r committed suspended with
  | case1 => exact List.prefix_refl _
  | case2 others r committed suspended id rest window start r₁ outcome ha r₂ ho ih =>
    exact (attempt_trials_grow ha).trans ih
  | case3 others r committed suspended id rest window start r₁ outcome ha r₂ ho r₃ hw ih =>
    exact (attempt_trials_grow ha).trans ih
  | case4 others r committed suspended id rest window start r₁ outcome ha r₂ ho r₃ hw ih =>
    exact (attempt_trials_grow ha).trans ih

/-! ## Both loops sift -/

/-- Whether an attempt ended optimally is told by the set of its members. -/
def Judged (good : Finset ConstraintId → Bool) (trials : List (Trial α)) : Prop :=
  ∀ t ∈ trials, t.status.isOptimal = good t.members.toFinset

/-- What a search knows when it has kept some of the list and has the rest of it before itself. -/
structure Sifting (base : System α) (tol : α) (sorted kept pending : List ConstraintId) (r : Run α (Recorder α ρ)) :
    Prop where
  holding : Holding base sorted kept r.system
  watched : r.engine.watched = sorted
  tolerance : r.scope.tolerance = tol
  subset : pending ⊆ sorted
  nodup : pending.Nodup
  fresh : ∀ id ∈ pending, id ∉ kept

omit [Scalar α] in
theorem Sifting.tried {tol : α} (h : Sifting base tol sorted kept pending r) (hsplit : pending = window ++ rest)
    (ha : attempt (switch r window true) sorted budget = (r₁, outcome)) {trials : List (Trial α)}
    (hmade : r₁.engine.trials <+: trials) (hj : Judged good trials) :
    Holding base sorted (kept ++ window) r₁.system ∧ r₁.engine.watched = sorted ∧ r₁.scope.tolerance = tol ∧
      outcome.status.isOptimal = good (present base sorted (kept ++ window)) := by
  subst hsplit
  have hswitched := h.holding.enable (List.append_subset.mp h.subset).1
  obtain ⟨hwatched, htrials⟩ := attempt_trials ha
  have hmembers : (switch r window true).system.liveIds (switch r window true).engine.watched =
      (r.system.setEnabledAll window true).liveIds sorted :=
    congrArg (System.liveIds _) h.watched
  have hlast := hj _ (hmade.subset (htrials ▸ List.mem_append_right _ (List.mem_singleton.mpr rfl)))
  simp only [hmembers, hswitched.toFinset_liveIds] at hlast
  obtain ⟨rfl, rfl⟩ := Prod.mk.inj ha
  have hprepare := Relaxation.KeepsRules.prepare_rules (switch r window true)
    ((switch r window true).system.liveIds sorted)
  have hrelax := Relaxation.KeepsRules.relax_rules (Relaxation.prepare (switch r window true)
    ((switch r window true).system.liveIds sorted)) budget
  refine ⟨hswitched.of_rules (hprepare.trans hrelax), hwatched.trans h.watched, ?_, hlast⟩
  exact (Relaxation.KeepsRules.relax_tolerance _ _).trans
    ((Relaxation.KeepsRules.prepare_tolerance _ _).trans h.tolerance)

omit [Scalar α] [Relaxation α ρ] [Relaxation.KeepsRules α ρ] in
theorem Sifting.keep {tol : α} (h : Sifting base tol sorted kept pending r) (hsplit : pending = window ++ rest)
    (hr : Holding base sorted (kept ++ window) r₁.system ∧ r₁.engine.watched = sorted ∧ r₁.scope.tolerance = tol) :
    Sifting base tol sorted (kept ++ window) rest r₁ := by
  subst hsplit
  obtain ⟨-, hrest, hapart⟩ := List.nodup_append.mp h.nodup
  refine ⟨hr.1, hr.2.1, hr.2.2, (List.append_subset.mp h.subset).2, hrest, ?_⟩
  intro id hid hmem
  rcases List.mem_append.mp hmem with hk | hw
  · exact h.fresh id (List.mem_append_right _ hid) hk
  · exact hapart id hw id hid rfl

omit [Scalar α] [Relaxation α ρ] [Relaxation.KeepsRules α ρ] in
theorem Sifting.rollback {tol : α} (h : Sifting base tol sorted kept pending r) (hsub : rest <:+ pending)
    (hr : Holding base sorted kept r₁.system ∧ r₁.engine.watched = sorted ∧ r₁.scope.tolerance = tol) :
    Sifting base tol sorted kept rest r₁ := by
  refine ⟨hr.1, hr.2.1, hr.2.2, fun id hid => h.subset (hsub.subset hid), h.nodup.sublist hsub.sublist, ?_⟩
  exact fun id hid => h.fresh id (hsub.subset hid)

omit [Scalar α] in
/-- A window whose attempt ends optimally is good, and is kept. -/
theorem Sifting.accept {tol : α} (h : Sifting base tol sorted kept pending r) (hsplit : pending = window ++ rest)
    (ha : attempt (switch r window true) sorted budget = (r₁, outcome)) {trials : List (Trial α)}
    (hmade : r₁.engine.trials <+: trials) (hj : Judged good trials) (ho : outcome.status.isOptimal = true)
    (e : Event α) :
    good (present base sorted (kept ++ window)) = true ∧
      Sifting base tol sorted (kept ++ window) rest { r₁ with scope := r₁.scope.report e } := by
  obtain ⟨hholding, hwatched, htol, hgood⟩ := h.tried hsplit ha hmade hj
  exact ⟨hgood.symm.trans ho, h.keep hsplit ⟨hholding, hwatched, htol⟩⟩

omit [Scalar α] in
/-- A window whose attempt fails is not good, and is taken back. -/
theorem Sifting.reject {tol : α} (h : Sifting base tol sorted kept pending r) (hsplit : pending = window ++ rest)
    (ha : attempt (switch r window true) sorted budget = (r₁, outcome)) {trials : List (Trial α)}
    (hmade : r₁.engine.trials <+: trials) (hj : Judged good trials) (ho : ¬ outcome.status.isOptimal = true)
    (e : Event α) (committed : Point α) :
    good (present base sorted (kept ++ window)) = false ∧ Sifting base tol sorted kept pending
      (restore (switch { r₁ with scope := r₁.scope.report e } window false) committed) := by
  obtain ⟨hholding, hwatched, htol, hgood⟩ := h.tried hsplit ha hmade hj
  have hsub : window ⊆ pending := fun id hid => hsplit ▸ List.mem_append_left _ hid
  have hoff := hholding.disable window (List.Subset.refl _) (fun id hid => h.subset (hsub hid))
    fun id hid => h.fresh id (hsub hid)
  refine ⟨hgood.symm.trans (Bool.not_eq_true _ ▸ ho), h.rollback (List.suffix_refl _) ⟨?_, hwatched, htol⟩⟩
  exact hoff.of_rules (System.storeValues_sameRules _ committed)

omit [Relaxation α ρ] [Relaxation.KeepsRules α ρ] in
theorem Sifting.pass {tol : α} {id : ConstraintId} (h : Sifting base tol sorted kept (id :: rest) r) :
    Sifting base tol sorted kept rest (suspend r id) := by
  have hholding : Holding base sorted (kept ++ []) r.system := by
    rw [List.append_nil]
    exact h.holding
  have hoff := hholding.disable [id] (List.nil_subset _) (by simpa using h.subset (List.mem_cons_self ..))
    (by simpa using h.fresh id (List.mem_cons_self ..))
  exact h.rollback (List.suffix_cons id rest) ⟨hoff, h.watched, h.tolerance⟩

/-- What a loop comes to: the flags and the suspensions of a greedy pass over the rest of the list. -/
structure Sifted (base : System α) (tol : α) (sorted : List ConstraintId)
    (split : List ConstraintId × List ConstraintId) (out : Run α (Recorder α ρ) × List ConstraintId) : Prop where
  holding : Holding base sorted split.1 out.1.system
  suspended : out.2 = split.2
  tolerance : out.1.scope.tolerance = tol

theorem addEach_sifted {tol : α} (h : Sifting base tol sorted kept pending r)
    (hj : Judged good (addEach sorted budget pending r committed suspended).1.engine.trials) :
    Sifted base tol sorted (sift (fun l => good (present base sorted l)) kept suspended pending)
      (addEach sorted budget pending r committed suspended) := by
  fun_induction addEach sorted budget pending r committed suspended generalizing kept with
  | case1 r committed suspended => exact ⟨h.holding, rfl, h.tolerance⟩
  | case2 id rest r committed suspended r₁ outcome ha ho ih =>
    have hsplit : id :: rest = [id] ++ rest := rfl
    obtain ⟨hholding, hwatched, htol, hgood⟩ := h.tried hsplit ha (addEach_trials_grow rest r₁ _ _) hj
    rw [sift_keep (hgood.symm.trans ho)]
    exact ih (h.keep hsplit ⟨hholding, hwatched, htol⟩) hj
  | case3 id rest r committed suspended r₁ outcome ha ho ih =>
    have hsplit : id :: rest = [id] ++ rest := rfl
    obtain ⟨hholding, hwatched, htol, hgood⟩ :=
      h.tried hsplit ha (addEach_trials_grow rest (suspend (restore r₁ committed) id) _ _) hj
    rw [sift_refuse (hgood.symm.trans (Bool.not_eq_true _ ▸ ho))]
    have hoff := (hholding.of_rules (r₁.system.storeValues_sameRules committed)).disable [id] (List.Subset.refl _)
      (by simpa using h.subset (List.mem_cons_self ..)) (by simpa using h.fresh id (List.mem_cons_self ..))
    exact ih (h.rollback (List.suffix_cons id rest) ⟨hoff, hwatched, htol⟩) hj

theorem searchWindows_sifted {tol : α} (hdown : ∀ S T, S ⊆ T → good T = true → good S = true) (others : Nat)
    (h : Sifting base tol sorted kept pending r)
    (hj : Judged good (searchWindows sorted budget pending others r committed suspended).1.engine.trials) :
    Sifted base tol sorted (sift (fun l => good (present base sorted l)) kept suspended pending)
      (searchWindows sorted budget pending others r committed suspended) := by
  fun_induction searchWindows sorted budget pending others r committed suspended generalizing kept with
  | case1 others r committed suspended => exact ⟨h.holding, rfl, h.tolerance⟩
  | case2 others r committed suspended id rest window start r₁ outcome ha r₂ ho =>
    rename_i ih
    have hsplit : id :: rest = window ++ rest.drop others := by simp [window]
    obtain ⟨hgood, hnext⟩ := h.accept hsplit ha
      (searchWindows_trials_grow (rest.drop others) (2 * others + 1) r₂ _ _) hj ho _
    -- a window that passes as a whole would pass one by one
    have hmono : ∀ l l', l ⊆ l' → good (present base sorted l') = true → good (present base sorted l) = true :=
      fun l l' hl => hdown _ _ (present_mono hl)
    rw [hsplit, sift_window hmono hgood]
    exact ih hnext hj
  | case3 others r committed suspended id rest window start r₁ outcome ha r₂ ho r₃ hw =>
    rename_i ih
    have hsplit : id :: rest = window ++ rest.drop others := by simp [window]
    obtain ⟨-, hback⟩ := h.reject hsplit ha
      (searchWindows_trials_grow (id :: rest) (window.length / 2 - 1) r₃ _ _) hj ho _ committed
    exact ih hback hj
  | case4 others r committed suspended id rest window start r₁ outcome ha r₂ ho r₃ hw =>
    rename_i ih
    have hone : window = [id] := window_single hw
    have hsplit : id :: rest = window ++ rest := by rw [hone]; rfl
    obtain ⟨hbad, hback⟩ := h.reject hsplit ha (searchWindows_trials_grow rest 0 (suspend r₃ id) _ _) hj ho _ committed
    rw [hone] at hbad
    rw [sift_refuse hbad]
    exact ih hback.pass hj

omit [Relaxation α ρ] [Relaxation.KeepsRules α ρ] in
theorem settle_sifted {tol : α} {split : List ConstraintId × List ConstraintId}
    {out : Run α (Recorder α ρ) × List ConstraintId} (h : Sifted base tol sorted split out) :
    (settle out.1 out.2 .optimal).2 =
      ⟨if split.2.any (isHopeless base tol) then .infeasible else .optimal, split.2⟩ := by
  unfold settle
  simp only [h.tolerance, h.suspended, isHopeless_of_outline h.holding.outline]

end Search

end Conflict

namespace Strategy

open Conflict

variable {α ρ : Type} [Scalar α] [Relaxation α ρ] [Relaxation.KeepsRules α ρ] {sorted : List ConstraintId}
  {good : Finset ConstraintId → Bool}

omit [Relaxation.KeepsRules α ρ] in
/-- The attempts that a strategy makes, with the members of the list that were enabled in each. -/
def trials (strategy : Strategy) (r : Run α ρ) (sorted : List ConstraintId) (budget : Nat) : List (Trial α) :=
  (strategy.resolve (r.map (Recorder.watch (α := α) sorted)) sorted budget).1.engine.trials

/-- Adding and binary search come to what the greedy pass comes to. -/
theorem resolve_sifted (strategy : Strategy) (hstrategy : strategy ≠ .removing) (r : Run α ρ) (hn : sorted.Nodup)
    (budget : Nat) (hdown : ∀ S T, S ⊆ T → good T = true → good S = true)
    (hj : Judged good (strategy.trials r sorted budget)) :
    let split := sift (fun l => good (present r.system sorted l)) [] [] sorted
    let out := strategy.resolve r sorted budget
    Holding r.system sorted split.1 out.1.system ∧
      out.2 = ⟨if split.2.any (isHopeless r.system r.scope.tolerance) then .infeasible else .optimal, split.2⟩ := by
  intro split out
  have hstart : Sifting r.system r.scope.tolerance sorted [] sorted
      (switch (r.map (Recorder.watch sorted)) sorted false) :=
    ⟨holding_none r.system sorted, rfl, rfl, List.Subset.refl _, hn, by simp⟩
  have herase : out = _ := strategy.resolve_erase (r.map (Recorder.watch sorted)) sorted budget
  rw [herase]
  cases strategy with
  | adding =>
    have h := addEach_sifted hstart hj
    exact ⟨h.holding, settle_sifted h⟩
  | removing => exact absurd rfl hstrategy
  | binarySearch =>
    have h := searchWindows_sifted hdown 0 hstart hj
    exact ⟨h.holding, settle_sifted h⟩

/-- **Binary search agrees with adding.**  Suppose that in both runs it depends on the set of enabled constraints of the
list alone whether an attempt ends optimally, and that a part of a set that ends optimally ends optimally.  Then both
suspend the same constraints in the same order, come to the same status, and leave every flag alike. -/
theorem binarySearch_resolve_eq_adding (r : Run α ρ) (sorted : List ConstraintId) (budget : Nat) (hn : sorted.Nodup)
    (good : Finset ConstraintId → Bool) (hdown : ∀ S T, S ⊆ T → good T = true → good S = true)
    (hgood : ∀ strategy ∈ [adding, binarySearch],
      ∀ t ∈ strategy.trials r sorted budget, t.status.isOptimal = good t.members.toFinset) :
    let byWindows := binarySearch.resolve r sorted budget
    let oneByOne := adding.resolve r sorted budget
    byWindows.2.suspended = oneByOne.2.suspended ∧ byWindows.2.status = oneByOne.2.status ∧
      ∀ id, byWindows.1.system.flag? id = oneByOne.1.system.flag? id := by
  intro byWindows oneByOne
  obtain ⟨hwindows, hresolution⟩ :=
    resolve_sifted binarySearch (by decide) r hn budget hdown (hgood _ (by simp))
  obtain ⟨hadding, hresolution'⟩ :=
    resolve_sifted adding (by decide) r hn budget hdown (hgood _ (by simp))
  have hsame : byWindows.2 = oneByOne.2 := hresolution.trans hresolution'.symm
  refine ⟨congrArg Resolution.suspended hsame, congrArg Resolution.status hsame, ?_⟩
  intro id
  exact (hwindows.flags id).trans (hadding.flags id).symm

/-- Two equalities over binary64 that contradict each other: both strategies suspend the second. -/
theorem binarySearch_resolve_eq_adding_of_contradiction :
    let sum : List (Term Float) := [⟨1, ⟨0, 0⟩⟩]
    let s : System Float := { System.empty 0 with
      slots := #[⟨0, none, [⟨0⟩, ⟨1⟩]⟩]
      attached := [⟨0, 0⟩]
      constraints := #[some (.build sum .eq (.fixed 4)), some (.build sum .eq (.fixed 6))]
      order := [⟨0⟩, ⟨1⟩] }
    let r : Run Float (Engine Float KeyStream) := ⟨.kaczmarz ⟨2, 1, 1, []⟩, s, { tolerance := s.tolerance }⟩
    (binarySearch.resolve r [⟨0⟩, ⟨1⟩] 2).2.suspended = [⟨1⟩] := by
  intro sum s r
  have hadding : (adding.resolve r [⟨0⟩, ⟨1⟩] 2).2.suspended = [⟨1⟩] := by decide +kernel
  have hboth := binarySearch_resolve_eq_adding r [⟨0⟩, ⟨1⟩] 2 (by decide)
    (fun S => !(decide (⟨0⟩ ∈ S) && decide (⟨1⟩ ∈ S))) ?_ ?_
  · exact hboth.1.trans hadding
  · intro S T hST hT
    simp only [Bool.not_eq_true', Bool.and_eq_false_iff, decide_eq_false_iff_not] at hT ⊢
    exact hT.imp (fun h h' => h (hST h')) fun h h' => h (hST h')
  · decide +kernel

end Strategy

end SoftLinear
