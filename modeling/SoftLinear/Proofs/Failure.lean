import SoftLinear.Proofs.Removal

/-!
# When conflicts cannot be resolved

A strategy ends as infeasible for one of two reasons: it had to suspend a hard constraint that cannot hold whatever the
values are, or it gave up.  Only removing gives up: it can suspend what its last attempt met violated and nothing else, so
an attempt that fails without having met any enabled constraint violated leaves it without a choice.

* `Conflict.Follows` is what all steps of a strategy keep, so that the verdict can be read off the first system;
* `Conflict.removing_settled` says that removing ends by itself on any list, repetitions and disabled constraints included;
* `Strategy.resolve_infeasible_iff` puts both reasons together.
-/

namespace SoftLinear

/-! ## Violated hard constraints -/

section Violated

variable {α : Type} [Scalar α]

theorem Scalar.foldl_larger_lt {β : Type} {f : β → α} {bound : α} (l : List β) {a : α} (ha : a < bound)
    (hl : ∀ x ∈ l, f x < bound) : l.foldl (fun acc x => larger acc (f x)) a < bound := by
  induction l generalizing a with
  | nil => exact ha
  | cons x l ih =>
    have hx : larger a (f x) < bound := by
      unfold larger
      split
      · exact hl x List.mem_cons_self
      · split
        · exact hl x List.mem_cons_self
        · exact ha
    exact ih hx fun y hy => hl y (List.mem_cons_of_mem x hy)

theorem Summary.exists_violated {cs : List (Constraint α)} {p : Point α} {tol : α} (htol : 0 < tol)
    (h : ¬ (measure cs p).hard < tol) : ∃ c ∈ cs, c.isHard = true ∧ c.isSatisfied p tol = false := by
  by_contra hnone
  refine h ?_
  rw [measure_hard]
  refine Scalar.foldl_larger_lt _ htol fun c hc => ?_
  obtain ⟨hmem, hhard⟩ := List.mem_filter.mp hc
  by_contra hlt
  exact hnone ⟨c, hmem, hhard, decide_eq_false hlt⟩

end Violated

namespace Conflict

/-! ## What every step keeps -/

section Steps

variable {α ρ : Type} [Scalar α] [Relaxation α ρ] {base r : Run α ρ}

omit [Scalar α] [Relaxation α ρ] in
/-- The second run works on the system of the first one, flags, values and pivots aside, and to the same tolerance. -/
structure Follows (base r : Run α ρ) : Prop where
  outline : base.system.SameOutline r.system
  tolerance : r.scope.tolerance = base.scope.tolerance

omit [Scalar α] [Relaxation α ρ] in
theorem Follows.refl (r : Run α ρ) : Follows r r := ⟨.refl r.system, rfl⟩

omit [Scalar α] [Relaxation α ρ] in
theorem Follows.switch (h : Follows base r) (ids : List ConstraintId) (enabled : Bool) :
    Follows base (switch r ids enabled) :=
  ⟨h.outline.trans (System.setEnabledAll_sameOutline _ ids enabled), h.tolerance⟩

omit [Scalar α] [Relaxation α ρ] in
theorem Follows.restore (h : Follows base r) (p : Point α) : Follows base (restore r p) :=
  ⟨h.outline.trans (System.storeValues_sameRules _ p).toSameOutline, h.tolerance⟩

omit [Relaxation α ρ] in
theorem Follows.suspend (h : Follows base r) (id : ConstraintId) : Follows base (suspend r id) :=
  ⟨(h.switch [id] false).outline, h.tolerance⟩

omit [Relaxation α ρ] in
/-- Of the strategy's verdict only the suspensions and the status of the last attempt are open. -/
theorem Follows.settle_infeasible (h : Follows base r) (suspended : List ConstraintId) (status : Status) :
    (settle r suspended status).2.status = .infeasible ↔
      (∃ id ∈ suspended, ∃ c, base.system.constraint? id = some c ∧ c.isHard = true ∧
        c.isSatisfiableAlone base.scope.tolerance = false) ∨ status = .infeasible := by
  have hany := List.any_eq_true (l := suspended) (p := isHopeless base.system base.scope.tolerance)
  simp only [isHopeless_iff] at hany
  rw [← hany]
  unfold settle
  rw [h.tolerance, isHopeless_of_outline h.outline]
  by_cases hsome : suspended.any (isHopeless base.system base.scope.tolerance) = true <;> simp [hsome]

variable [Relaxation.KeepsRules α ρ] {sorted : List ConstraintId} {budget : Nat}

omit [Scalar α] in
theorem attempt_rules (r : Run α ρ) (sorted : List ConstraintId) (budget : Nat) :
    r.system.SameRules (attempt r sorted budget).1.system :=
  (Relaxation.KeepsRules.prepare_rules r _).trans (Relaxation.KeepsRules.relax_rules _ budget)

omit [Scalar α] in
theorem Follows.attempt (h : Follows base r) (sorted : List ConstraintId) (budget : Nat) :
    Follows base (attempt r sorted budget).1 where
  outline := h.outline.trans (attempt_rules r sorted budget).toSameOutline
  tolerance := (Relaxation.KeepsRules.relax_tolerance _ budget).trans
    ((Relaxation.KeepsRules.prepare_tolerance r _).trans h.tolerance)

omit [Scalar α] in
theorem Follows.attempted {r' : Run α ρ} {outcome : Outcome α} (h : Follows base r)
    (ha : Conflict.attempt r sorted budget = (r', outcome)) : Follows base r' := by
  have hattempt := h.attempt sorted budget
  rwa [ha] at hattempt

theorem Follows.addEach (h : Follows base r) (pending : List ConstraintId) (committed : Point α)
    (suspended : List ConstraintId) : Follows base (addEach sorted budget pending r committed suspended).1 := by
  fun_induction Conflict.addEach sorted budget pending r committed suspended with
  | case1 => exact h
  | case2 id rest r committed suspended r₁ outcome ha ho ih => exact ih ((h.switch _ _).attempted ha)
  | case3 id rest r committed suspended r₁ outcome ha ho ih =>
    exact ih ((((h.switch _ _).attempted ha).restore _).suspend id)

theorem Follows.searchWindows (h : Follows base r) (pending : List ConstraintId) (others : Nat) (committed : Point α)
    (suspended : List ConstraintId) :
    Follows base (searchWindows sorted budget pending others r committed suspended).1 := by
  fun_induction Conflict.searchWindows sorted budget pending others r committed suspended with
  | case1 => exact h
  | case2 others r committed suspended id rest window start r₁ outcome ha r₂ ho ih =>
    have htried := (h.switch _ _).attempted ha
    exact ih ⟨htried.outline, htried.tolerance⟩
  | case3 others r committed suspended id rest window start r₁ outcome ha r₂ ho r₃ hw ih =>
    have htried := (h.switch _ _).attempted ha
    have hback : Follows base r₂ := ⟨htried.outline, htried.tolerance⟩
    exact ih ((hback.switch _ _).restore _)
  | case4 others r committed suspended id rest window start r₁ outcome ha r₂ ho r₃ hw ih =>
    have htried := (h.switch _ _).attempted ha
    have hback : Follows base r₂ := ⟨htried.outline, htried.tolerance⟩
    exact ih (((hback.switch _ _).restore _).suspend id)

theorem Follows.suspendEach (h : Follows base r) (gone : List ConstraintId) :
    Follows base (suspendEach sorted budget r gone) := by
  induction gone generalizing r with
  | nil => exact h
  | cons id gone ih => exact ih ((h.attempt sorted budget).suspend id)

end Steps

/-! ## Removing ends by itself -/

section Rounds

variable {α ρ : Type} [Scalar α] [Relaxation α ρ] [Relaxation.KeepsRules α ρ] {sorted gone : List ConstraintId}
  {budget : Nat} {r : Run α ρ}

omit [Relaxation α ρ] [Relaxation.KeepsRules α ρ] in
theorem liveIds_suspend_lt {id : ConstraintId} (hid : id ∈ r.system.liveIds sorted) :
    ((suspend r id).system.liveIds sorted).length < (r.system.liveIds sorted).length := by
  have hlive : (suspend r id).system.liveIds sorted = (r.system.liveIds sorted).filter (· ≠ id) := by
    show (r.system.setEnabledAll [id] false).liveIds sorted = _
    rw [System.liveIds_eq_filter, System.liveIds_eq_filter, List.filter_filter]
    refine List.filter_congr fun other _ => ?_
    rw [System.flag?_setEnabledAll]
    by_cases ho : other = id
    · simp [ho]
    · simp [ho]
  rw [hlive]
  exact List.length_filter_lt_length_iff_exists.mpr ⟨id, hid, by simp⟩

/-- Every suspension takes an enabled constraint away, so those suspended and those left fit into the list. -/
theorem Removal.length_le (h : Removal sorted budget r gone) :
    ((suspendEach sorted budget r gone).system.liveIds sorted).length + gone.length ≤ sorted.length := by
  induction gone using List.reverseRecOn with
  | nil =>
    rw [System.liveIds_eq_filter]
    exact List.length_filter_le _ sorted
  | append_singleton gone id ih =>
    have hbefore := ih (h.shorter (List.prefix_append _ _))
    obtain ⟨-, hv⟩ := asks_eq_some.mp (h gone id [] rfl)
    have hlt := liveIds_suspend_lt (System.mem_liveIds.mpr (victim_mem hv))
    rw [← suspendEach_concat] at hlt
    have hsame : ((attemptAfter sorted budget r gone).1.system.liveIds sorted) =
        (suspendEach sorted budget r gone).system.liveIds sorted := (attempt_rules _ sorted budget).liveIds_eq sorted
    rw [hsame] at hlt
    rw [List.length_append, List.length_singleton]
    omega

/-- **Removing ends by itself**, whatever list it is given: its suspensions tell what it does. -/
theorem removing_settled (r : Run α ρ) (sorted : List ConstraintId) (budget : Nat) :
    ∃ gone, Settled sorted budget r gone ∧ removing r sorted budget =
      settle (attemptAfter sorted budget r gone).1 gone (attemptAfter sorted budget r gone).2.status := by
  obtain ⟨gone, hgone, hle, hend⟩ := exists_removal sorted budget sorted.length r
  have hsettled : Settled sorted budget r gone := by
    rcases hend with hend | hlen
    · exact hend
    · -- as many suspensions as constraints leave none that could be asked for
      have hlive : (attemptAfter sorted budget r gone).1.system.liveIds sorted = [] := by
        have hempty := hgone.length_le
        rw [← (attempt_rules _ sorted budget).liveIds_eq sorted] at hempty
        exact List.length_eq_zero_iff.mp (by unfold attemptAfter; omega)
      unfold Settled asks? victim?
      rw [hlive]
      simp
  exact ⟨gone, hsettled, removeRounds_eq hgone hsettled hle []⟩

theorem Settled.unmet (h : Settled sorted budget r gone) (hfailed : (attemptAfter sorted budget r gone).2.status ≠ .optimal) :
    ∀ id ∈ sorted, (attemptAfter sorted budget r gone).1.system.flag? id = some true →
      ¬ r.scope.tolerance ≤ (attemptAfter sorted budget r gone).2.residuals.of id := by
  have hnone : victim? (attemptAfter sorted budget r gone).1 sorted
      (attemptAfter sorted budget r gone).2.residuals = none := by
    have hasks : asks? sorted (attemptAfter sorted budget r gone) = none := h
    rwa [asks?, if_neg (mt Status.isOptimal_iff.mp hfailed)] at hasks
  have htol : (attemptAfter sorted budget r gone).1.scope.tolerance = r.scope.tolerance :=
    (((Follows.refl r).suspendEach gone).attempt sorted budget).tolerance
  rw [← htol]
  exact victim_none hnone

end Rounds

theorem attempt_infeasible {α γ : Type} [Scalar α] [Generator γ] {r : Run α (Engine α γ)} {sorted : List ConstraintId}
    {budget : Nat} (htol : 0 < r.scope.tolerance) (h : (attempt r sorted budget).2.status = .infeasible) :
    ∃ id ∈ sorted, ∃ c, (attempt r sorted budget).1.system.constraint? id = some c ∧ c.enabled = true ∧
      c.isHard = true ∧ c.isSatisfied (attempt r sorted budget).1.system.values r.scope.tolerance = false := by
  obtain ⟨k, -, -, hstatus, -⟩ := Engine.relax_spec (Relaxation.prepare r (r.system.liveIds sorted)) budget
  have hhard := (Status.verdict_eq_infeasible.mp (hstatus.symm.trans h)).2.1
  rw [Engine.summaryAfter, Engine.active, (Engine.prepare_engine r _).2, (Engine.prepare_scope r _).1.tolerance,
    Summary.measure_of_rules (Engine.prepare_rules r _), System.live_liveIds,
    ← Summary.measure_of_rules (attempt_rules r sorted budget)] at hhard
  obtain ⟨c, hc, hviolated⟩ := Summary.exists_violated htol hhard
  obtain ⟨x, hx, rfl⟩ := List.mem_map.mp hc
  obtain ⟨hid, hat, hon⟩ := System.mem_live.mp hx
  exact ⟨x.1, hid, x.2, hat, hon, hviolated⟩

end Conflict

namespace Strategy

open Conflict

variable {α γ : Type} [Scalar α] [Generator γ]

/-- **When a strategy ends as infeasible.**  Adding and binary search do so exactly when they suspend a hard constraint
that cannot hold whatever the values are.  Removing does so as well when it gives up: the attempt after its last suspension
ends as infeasible without having met any enabled constraint of the list violated.  Then it leaves what that attempt left,
and there an enabled hard constraint does not hold; so soft constraints are never the reason. -/
theorem resolve_infeasible_iff (strategy : Strategy) (r : Run α (Engine α γ)) (sorted : List ConstraintId)
    (budget : Nat) :
    let out := strategy.resolve r sorted budget
    let last := attemptAfter sorted budget r out.2.suspended
    let tol := r.scope.tolerance
    let gaveUp := strategy = removing ∧ last.2.status = .infeasible
    (out.2.status = .infeasible ↔ (∃ id ∈ out.2.suspended, ∃ c, r.system.constraint? id = some c ∧ c.isHard = true ∧
      c.isSatisfiableAlone tol = false) ∨ gaveUp) ∧
    (gaveUp → out.1 = last.1 ∧
      (∀ id ∈ sorted, out.1.system.flag? id = some true → ¬ tol ≤ last.2.residuals.of id) ∧
      (0 < tol → ∃ id ∈ sorted, ∃ c, out.1.system.constraint? id = some c ∧ c.enabled = true ∧ c.isHard = true ∧
        c.isSatisfied out.1.system.values tol = false)) := by
  intro out last tol gaveUp
  cases strategy with
  | adding =>
    have hnot : ¬ gaveUp := by simp [gaveUp]
    have h : Follows r out.1 := ((Follows.refl r).switch sorted false).addEach sorted _ []
    have hstatus := h.settle_infeasible out.2.suspended .optimal
    exact ⟨hstatus.trans (or_congr_right (iff_of_false (by decide) hnot)), fun hgave => absurd hgave hnot⟩
  | binarySearch =>
    have hnot : ¬ gaveUp := by simp [gaveUp]
    have h : Follows r out.1 := ((Follows.refl r).switch sorted false).searchWindows sorted 0 _ []
    have hstatus := h.settle_infeasible out.2.suspended .optimal
    exact ⟨hstatus.trans (or_congr_right (iff_of_false (by decide) hnot)), fun hgave => absurd hgave hnot⟩
  | removing =>
    obtain ⟨gone, hsettled, hrun⟩ := removing_settled r sorted budget
    have hout : out = settle (attemptAfter sorted budget r gone).1 gone
      (attemptAfter sorted budget r gone).2.status := hrun
    obtain rfl : out.2.suspended = gone := congrArg (fun x => x.2.suspended) hout
    have hlast : out.1 = last.1 := congrArg Prod.fst hout
    have hfollows : Follows r (suspendEach sorted budget r out.2.suspended) := (Follows.refl r).suspendEach _
    constructor
    · have hstatus := (hfollows.attempt sorted budget).settle_infeasible out.2.suspended last.2.status
      rw [show out.2.status = _ from congrArg (fun x => x.2.status) hout]
      exact hstatus.trans (or_congr_right (and_iff_right rfl).symm)
    · rintro ⟨-, hfailed⟩
      rw [hlast]
      refine ⟨rfl, hsettled.unmet (by rw [show _ = Status.infeasible from hfailed]; decide), fun htol => ?_⟩
      -- an infeasible attempt has measured a hard error, which no soft constraint contributes to
      have hviolated := attempt_infeasible (hfollows.tolerance.symm ▸ htol) hfailed
      rw [hfollows.tolerance] at hviolated
      exact hviolated

/-- A hard constraint whose only weight is zero has no pivot, so no attempt of the relaxation with pivots ever meets it
violated: removing gives up, and the constraint that cannot hold stays enabled. -/
theorem removing_gives_up_without_pivot :
    let s : System Float := { System.empty 0 with
      slots := #[⟨0, none, [⟨0⟩]⟩]
      attached := [⟨0, 0⟩]
      constraints := #[some (.build [⟨0, ⟨0, 0⟩⟩] .eq (.fixed 5))]
      order := [⟨0⟩] }
    let r : Run Float (Engine Float KeyStream) :=
      ⟨.gaussSeidel (.standard .deterministic), s, { tolerance := s.tolerance }⟩
    let out := removing.resolve r [⟨0⟩] 1
    out.2.status = .infeasible ∧ out.2.suspended = [] ∧ out.1.system.flag? ⟨0⟩ = some true := by
  decide +kernel

-- The weights of the first and the last constraint are so small that their residuals stay below the tolerance, while
-- the moves that they ask for take the variable away from where the second one holds: each of the three can hold.
example :
    let at? (weight right : Float) : Option (Constraint Float) := some (.build [⟨weight, ⟨0, 0⟩⟩] .eq (.fixed right))
    let s : System Float := { System.empty 0 with
      slots := #[⟨0, none, [⟨0⟩, ⟨1⟩, ⟨2⟩]⟩]
      attached := [⟨0, 0⟩]
      constraints := #[at? 1e-5 1e-12, at? 1 1e-7, at? 1e-5 0]
      order := [⟨0⟩, ⟨1⟩, ⟨2⟩] }
    let r : Run Float (Engine Float KeyStream) := ⟨.kaczmarz .standard, s, { tolerance := s.tolerance }⟩
    (removing.resolve r [⟨0⟩, ⟨1⟩, ⟨2⟩] 2).2 = ⟨.infeasible, []⟩ := by
  decide +kernel

end Strategy

end SoftLinear
