import SoftLinear.Proofs.Search

/-!
# What strategies keep

A strategy does four things to a run: it switches constraints of its list, attempts to solve the enabled ones, goes back to
a point where the run has been, and reports.  A property of the relaxation and the system that the first three keep
(`Conflict.StepInvariant`) holds at the end of every strategy if it holds at the beginning
(`Conflict.StepInvariant.resolve`).  The points to go back to have a property of their own, because going back to any other
point could break the first one.
-/

namespace SoftLinear

namespace Conflict

variable {α ρ : Type} [Relaxation α ρ] {P : ρ → System α → Prop} {Q : Point α → Prop} {sorted : List ConstraintId}
  {budget : Nat}

/-- A property of relaxations and systems, and one of points, that every step of a strategy over a list keeps. -/
structure StepInvariant (ρ : Type) [Relaxation α ρ] (sorted : List ConstraintId) (P : ρ → System α → Prop)
    (Q : Point α → Prop) : Prop where
  switch : ∀ e s ids b, ids ⊆ sorted → P e s → P e (s.setEnabledAll ids b)
  restore : ∀ e s p, Q p → P e s → P e (s.storeValues p)
  commit : ∀ e s, P e s → Q s.values
  attempt : ∀ (r : Run α ρ) budget, P r.engine r.system →
    P (attempt r sorted budget).1.engine (attempt r sorted budget).1.system

namespace StepInvariant

theorem attempted (h : StepInvariant ρ sorted P Q) {r r' : Run α ρ} {outcome : Outcome α} (hr : P r.engine r.system)
    (ha : Conflict.attempt r sorted budget = (r', outcome)) : P r'.engine r'.system := by
  have hattempt := h.attempt r budget hr
  rwa [ha] at hattempt

variable [Scalar α]

theorem addEach (h : StepInvariant ρ sorted P Q) {pending : List ConstraintId} (hpending : pending ⊆ sorted)
    {r : Run α ρ} {committed : Point α} (suspended : List ConstraintId) (hr : P r.engine r.system) (hc : Q committed) :
    let r' := (Conflict.addEach sorted budget pending r committed suspended).1
    P r'.engine r'.system := by
  fun_induction Conflict.addEach sorted budget pending r committed suspended with
  | case1 => exact hr
  | case2 id rest r committed suspended r₁ outcome ha ho ih =>
    obtain ⟨hid, hrest⟩ := List.cons_subset.mp hpending
    have hr₁ := h.attempted (h.switch _ _ [id] true (by simp [hid]) hr) ha
    exact ih hrest hr₁ (h.commit _ _ hr₁)
  | case3 id rest r committed suspended r₁ outcome ha ho ih =>
    obtain ⟨hid, hrest⟩ := List.cons_subset.mp hpending
    have hsub : [id] ⊆ sorted := by simp [hid]
    have hr₁ := h.attempted (h.switch _ _ [id] true hsub hr) ha
    exact ih hrest (h.switch _ _ [id] false hsub (h.restore _ _ _ hc hr₁)) hc

theorem searchWindows (h : StepInvariant ρ sorted P Q) {pending : List ConstraintId} (hpending : pending ⊆ sorted)
    (others : Nat) {r : Run α ρ} {committed : Point α} (suspended : List ConstraintId) (hr : P r.engine r.system)
    (hc : Q committed) :
    let r' := (Conflict.searchWindows sorted budget pending others r committed suspended).1
    P r'.engine r'.system := by
  -- a window is made of constraints that are still to come
  have hwindow : ∀ (id : ConstraintId) (rest : List ConstraintId) n, id :: rest ⊆ sorted →
      id :: rest.take n ⊆ sorted := by
    intro id rest n hsub
    exact fun x hx => hsub ((List.cons_subset_cons id (List.take_subset n rest)) hx)
  fun_induction Conflict.searchWindows sorted budget pending others r committed suspended with
  | case1 => exact hr
  | case2 others r committed suspended id rest window start r₁ outcome ha r₂ ho ih =>
    have hr₁ := h.attempted (h.switch _ _ window true (hwindow id rest others hpending) hr) ha
    have hrest : rest.drop others ⊆ sorted :=
      fun x hx => hpending (List.mem_cons_of_mem id (List.drop_subset others rest hx))
    exact ih hrest hr₁ (h.commit _ _ hr₁)
  | case3 others r committed suspended id rest window start r₁ outcome ha r₂ ho r₃ hw ih =>
    have hsub := hwindow id rest others hpending
    have hr₁ := h.attempted (h.switch _ _ window true hsub hr) ha
    exact ih hpending (h.restore _ _ _ hc (h.switch _ _ window false hsub hr₁)) hc
  | case4 others r committed suspended id rest window start r₁ outcome ha r₂ ho r₃ hw ih =>
    obtain ⟨hid, hrest⟩ := List.cons_subset.mp hpending
    have hsub := hwindow id rest others hpending
    have hr₁ := h.attempted (h.switch _ _ window true hsub hr) ha
    have hr₃ := h.restore _ _ _ hc (h.switch _ _ window false hsub hr₁)
    exact ih hrest (h.switch _ _ [id] false (by simp [hid]) hr₃) hc

theorem removeRounds (h : StepInvariant ρ sorted P Q) (rounds : Nat) {r : Run α ρ} (suspended : List ConstraintId)
    (hr : P r.engine r.system) :
    let r' := (Conflict.removeRounds sorted budget rounds r suspended).1
    P r'.engine r'.system := by
  fun_induction Conflict.removeRounds sorted budget rounds r suspended with
  | case1 rounds r suspended r₁ outcome ha ho => exact h.attempted hr ha
  | case2 r suspended r₁ outcome ha ho id rounds hv ih =>
    have hid : [id] ⊆ sorted := by simp [(victim_mem hv).1]
    exact ih (h.switch _ _ [id] false hid (h.attempted hr ha))
  | case3 rounds r suspended r₁ outcome ha ho hnone => exact h.attempted hr ha

/-- **What every step of a strategy keeps, the strategy keeps.** -/
theorem resolve (h : StepInvariant ρ sorted P Q) (strategy : Strategy) {r : Run α ρ} (hr : P r.engine r.system) :
    let r' := (strategy.resolve r sorted budget).1
    P r'.engine r'.system := by
  have hnone := h.switch _ _ sorted false (fun _ hid => hid) hr
  cases strategy with
  | adding => exact h.addEach (fun _ hid => hid) [] hnone (h.commit _ _ hnone)
  | removing => exact h.removeRounds _ [] hr
  | binarySearch => exact h.searchWindows (fun _ hid => hid) 0 [] hnone (h.commit _ _ hnone)

end StepInvariant

end Conflict

end SoftLinear
