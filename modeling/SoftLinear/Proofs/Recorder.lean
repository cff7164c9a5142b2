import SoftLinear.Conflict
import SoftLinear.Proofs.Engines

/-!
# Recording the attempts of a strategy

A strategy learns about conflicts by relaxing again and again.  `Recorder` puts an observer around a relaxation: it
relaxes as before and keeps a record of each attempt, with the watched constraints that were enabled, how it ended and
which values it left.

Recording changes nothing (`Strategy.resolve_erase`), so what is proved about the records of a recorded run says what
happens in the run without them.
-/

namespace SoftLinear

/-- The record of one attempt: the watched constraints that were enabled, the status, and the values that it left. -/
structure Trial (α : Type) where
  members : List ConstraintId
  status : Status
  values : Point α
  /-- How many events had been reported when it ended. -/
  reported : Nat

/-- A relaxation with a record of its attempts. -/
structure Recorder (α ρ : Type) where
  engine : ρ
  watched : List ConstraintId
  trials : List (Trial α)

namespace Recorder

variable {α ρ : Type} [Scalar α] [Relaxation α ρ]

omit [Scalar α] [Relaxation α ρ] in
/-- A relaxation without any attempt yet. -/
def watch (watched : List ConstraintId) (engine : ρ) : Recorder α ρ := ⟨engine, watched, []⟩

omit [Scalar α] in
def relax (r : Run α (Recorder α ρ)) (budget : Nat) : Run α (Recorder α ρ) × Outcome α :=
  let (r', outcome) := Relaxation.relax (r.map engine) budget
  let trial : Trial α := ⟨r.system.liveIds r.engine.watched, outcome.status, r'.system.values, r'.scope.log.size⟩
  (r'.map fun engine => { r.engine with engine := engine, trials := r.engine.trials ++ [trial] }, outcome)

instance : Relaxation α (Recorder α ρ) where
  prepare r ids := (Relaxation.prepare (r.map engine) ids).map fun engine => { r.engine with engine := engine }
  relax := relax
  withdraw r s id := (Relaxation.withdraw r.engine s id).map (fun engine => { r with engine := engine }) fun b => b
  budget r := Relaxation.budget r.engine
  name r := Relaxation.name r.engine

omit [Scalar α] in
theorem relax_trials (r : Run α (Recorder α ρ)) (n : Nat) :
    (Relaxation.relax r n).1.engine.trials = r.engine.trials ++ [⟨r.system.liveIds r.engine.watched,
      (Relaxation.relax r n).2.status, (Relaxation.relax r n).1.system.values,
      (Relaxation.relax r n).1.scope.log.size⟩] := rfl

instance [h : Relaxation.Lawful α ρ] : Relaxation.Lawful α (Recorder α ρ) where
  prepare_rules r ids := h.prepare_rules (r.map engine) ids
  prepare_scope r ids := h.prepare_scope (r.map engine) ids
  relax_rules r n := h.relax_rules (r.map engine) n
  relax_scope r n := h.relax_scope (r.map engine) n
  relax_optimal r ids n := h.relax_optimal (r.map engine) ids n

instance [h : Relaxation.KeepsRules α ρ] : Relaxation.KeepsRules α (Recorder α ρ) where
  prepare_rules r ids := h.prepare_rules (r.map engine) ids
  prepare_tolerance r ids := h.prepare_tolerance (r.map engine) ids
  relax_rules r n := h.relax_rules (r.map engine) n
  relax_tolerance r n := h.relax_tolerance (r.map engine) n

end Recorder

/-! ## Recording changes nothing -/

namespace Conflict

variable {α ρ : Type} [Scalar α] [Relaxation α ρ] (sorted : List ConstraintId) (budget : Nat)

omit [Scalar α] [Relaxation α ρ] in
/-- A run and a result, without the records. -/
def unrecorded {β : Type} (x : Run α (Recorder α ρ) × β) : Run α ρ × β := (x.1.map Recorder.engine, x.2)

omit [Scalar α] in
variable {sorted budget} in
theorem attempt_erase {r r' : Run α (Recorder α ρ)} {outcome : Outcome α}
    (h : attempt r sorted budget = (r', outcome)) :
    attempt (r.map Recorder.engine) sorted budget = (r'.map Recorder.engine, outcome) :=
  congrArg unrecorded h

theorem addEach_erase (pending : List ConstraintId) (r : Run α (Recorder α ρ)) (committed : Point α)
    (suspended : List ConstraintId) :
    addEach sorted budget pending (r.map Recorder.engine) committed suspended =
      unrecorded (addEach sorted budget pending r committed suspended) := by
  fun_induction addEach sorted budget pending r committed suspended with
  | case1 => rfl
  | case2 id rest r committed suspended r' outcome h ho ih =>
    have he : attempt (switch (r.map Recorder.engine) [id] true) sorted budget = _ := attempt_erase h
    rw [addEach, he]
    simp only [ho, if_true]
    exact ih
  | case3 id rest r committed suspended r' outcome h ho ih =>
    have he : attempt (switch (r.map Recorder.engine) [id] true) sorted budget = _ := attempt_erase h
    rw [addEach, he]
    simp only [ho]
    exact ih

theorem searchWindows_erase (pending : List ConstraintId) (others : Nat) (r : Run α (Recorder α ρ))
    (committed : Point α) (suspended : List ConstraintId) :
    searchWindows sorted budget pending others (r.map Recorder.engine) committed suspended =
      unrecorded (searchWindows sorted budget pending others r committed suspended) := by
  fun_induction searchWindows sorted budget pending others r committed suspended with
  | case1 =>
    rw [searchWindows]
    rfl
  | case2 others r committed suspended id rest window start r' outcome h r'' ho ih =>
    have he : attempt (switch (r.map Recorder.engine) window true) sorted budget = _ := attempt_erase h
    rw [searchWindows, he]
    simp only [ho, if_true]
    exact ih
  | case3 others r committed suspended id rest window start r' outcome h r'' ho r''' hw ih =>
    have he : attempt (switch (r.map Recorder.engine) window true) sorted budget = _ := attempt_erase h
    rw [searchWindows, he]
    simp only [ho]
    rw [if_pos hw]
    exact ih
  | case4 others r committed suspended id rest window start r' outcome h r'' ho r''' hw ih =>
    have he : attempt (switch (r.map Recorder.engine) window true) sorted budget = _ := attempt_erase h
    rw [searchWindows, he]
    simp only [ho]
    rw [if_neg hw]
    exact ih

theorem removeRounds_erase (rounds : Nat) (r : Run α (Recorder α ρ)) (suspended : List ConstraintId) :
    removeRounds sorted budget rounds (r.map Recorder.engine) suspended =
      unrecorded (removeRounds sorted budget rounds r suspended) := by
  fun_induction removeRounds sorted budget rounds r suspended with
  | case1 rounds r suspended r' outcome h ho =>
    rw [removeRounds, attempt_erase h]
    simp only [ho, if_true]
    rfl
  | case2 r suspended r' outcome h ho id rounds hv ih =>
    have hv' : victim? (r'.map Recorder.engine) sorted outcome.residuals = some id := hv
    rw [removeRounds, attempt_erase h]
    simp only [ho, hv']
    exact ih
  | case3 rounds r suspended r' outcome h ho hnone =>
    have hnone' : ∀ id n, victim? (r'.map Recorder.engine) sorted outcome.residuals = some id →
        rounds = n + 1 → False :=
      hnone
    rw [removeRounds, attempt_erase h]
    simp only [ho]
    cases hv : victim? (r'.map Recorder.engine) sorted outcome.residuals with
    | none => rfl
    | some id =>
      cases rounds with
      | zero => rfl
      | succ n => exact absurd rfl (hnone' id n hv)

end Conflict

/-- **A strategy does the same with and without a record of its attempts.** -/
theorem Strategy.resolve_erase {α ρ : Type} [Scalar α] [Relaxation α ρ] (strategy : Strategy)
    (r : Run α (Recorder α ρ)) (sorted : List ConstraintId) (budget : Nat) :
    strategy.resolve (r.map Recorder.engine) sorted budget =
      ((strategy.resolve r sorted budget).1.map Recorder.engine, (strategy.resolve r sorted budget).2) := by
  cases strategy with
  | adding =>
    have h := Conflict.addEach_erase sorted budget sorted (Conflict.switch r sorted false)
      (Conflict.switch r sorted false).system.values []
    exact congrArg (fun x : Run α ρ × List ConstraintId => Conflict.settle x.1 x.2 .optimal) h
  | removing => exact Conflict.removeRounds_erase sorted budget sorted.length r []
  | binarySearch =>
    have h := Conflict.searchWindows_erase sorted budget sorted 0 (Conflict.switch r sorted false)
      (Conflict.switch r sorted false).system.values []
    exact congrArg (fun x : Run α ρ × List ConstraintId => Conflict.settle x.1 x.2 .optimal) h

end SoftLinear
