import Mathlib.Data.List.Sort
import SoftLinear.Proofs.History
import SoftLinear.Proofs.Search
import SoftLinear.Solver

/-!
# Suspensions and the choices of the caller

Two parties write the flag of a constraint: the caller, who enables and disables, and a resolving solver, which suspends.
The flag alone does not tell who wrote it last.  `Model.choices` remembers what the caller chose for each constraint; the
invariant is that a flag is set exactly when the caller chose so and the last solve did not suspend the constraint
(`Model.Balanced`).

A solve first lifts the suspensions, so it starts from the caller's choices alone: its agenda is what the caller left
enabled.
-/

namespace SoftLinear

/-! ## Sorting by priority -/

namespace System

variable {α : Type} [Scalar α]

/-- The first identifier has no smaller penalty than the second. -/
def Outweighs (s : System α) (a b : ConstraintId) : Prop := s.penaltyOf b ≤ s.penaltyOf a

instance (s : System α) : DecidableRel s.Outweighs := fun a b => Scalar.decidableLe (s.penaltyOf b) (s.penaltyOf a)

theorem insertByPriority_eq (s : System α) (id : ConstraintId) (ids : List ConstraintId) :
    s.insertByPriority id ids = ids.orderedInsert s.Outweighs id := by
  induction ids with
  | nil => rfl
  | cons a ids ih =>
    unfold insertByPriority
    rw [List.orderedInsert_cons, ih]
    rfl

theorem sortByPriority_eq (s : System α) (ids : List ConstraintId) :
    s.sortByPriority ids = ids.insertionSort s.Outweighs := by
  induction ids with
  | nil => rfl
  | cons id ids ih =>
    rw [List.insertionSort_cons, ← ih, ← insertByPriority_eq]
    rfl

theorem sortByPriority_perm (s : System α) (ids : List ConstraintId) : (s.sortByPriority ids).Perm ids := by
  rw [sortByPriority_eq]
  exact List.perm_insertionSort s.Outweighs ids

theorem WellFormed.nodup_order {s : System α} (h : s.WellFormed) : s.order.Nodup :=
  h.sorted.imp fun hlt he => absurd hlt (by rw [he]; exact Nat.lt_irrefl _)

theorem WellFormed.mem_enabledIds {s : System α} (h : s.WellFormed) {id : ConstraintId} :
    id ∈ s.enabledIds ↔ s.flag? id = some true := by
  unfold enabledIds
  rw [mem_liveIds, h.listed]
  constructor
  · exact And.right
  · intro hf
    refine ⟨?_, hf⟩
    obtain ⟨c, hc, -⟩ := Option.map_eq_some_iff.mp hf
    rw [hc]
    rfl

end System

/-! ## What a resolving solver works on -/

namespace ResolvingSolver

variable {α ρ : Type} [Scalar α] [Relaxation α ρ]

/-- The constraints that a solve hands to its strategy. -/
def agenda (d : ResolvingSolver ρ) (s : System α) : List ConstraintId := (d.lift s).sortByPriority (d.lift s).enabledIds

/-- The run that a solve hands to its strategy. -/
def task (d : ResolvingSolver ρ) (s : System α) : Run α ρ where
  engine := d.engine
  system := d.lift s
  scope := Scope.report { tolerance := (d.lift s).tolerance } (.solveStarted "ConflictResolving" (some d.strategy.name)
    (Relaxation.name d.engine) (d.agenda s).length (d.lift s).attached.length)

def resolution (d : ResolvingSolver ρ) (s : System α) : Run α ρ × Resolution :=
  d.strategy.resolve (d.task s) (d.agenda s) (d.budget.getD (Relaxation.budget d.engine))

variable {d : ResolvingSolver ρ} {s : System α}

omit [Relaxation α ρ] in
theorem lift_sameOutline (d : ResolvingSolver ρ) (s : System α) : s.SameOutline (d.lift s) :=
  (s.seed_sameRules d.reset).toSameOutline.trans (System.setEnabledAll_sameOutline _ _ _)

omit [Relaxation α ρ] in
theorem flag?_lift (d : ResolvingSolver ρ) (s : System α) (id : ConstraintId) :
    (d.lift s).flag? id = if id ∈ d.suspended then (s.flag? id).map fun _ => true else s.flag? id := by
  unfold lift
  rw [System.flag?_setEnabledAll, (s.seed_sameRules d.reset).flags]

omit [Relaxation α ρ] in
theorem mem_agenda (h : s.WellFormed) {id : ConstraintId} : id ∈ d.agenda s ↔ (d.lift s).flag? id = some true := by
  unfold agenda
  rw [(System.sortByPriority_perm _ _).mem_iff]
  exact ((d.lift_sameOutline s).wellFormed h).mem_enabledIds

omit [Relaxation α ρ] in
theorem nodup_agenda (h : s.WellFormed) : (d.agenda s).Nodup := by
  unfold agenda
  rw [(System.sortByPriority_perm _ _).nodup_iff, System.enabledIds, System.liveIds_eq_filter]
  exact ((d.lift_sameOutline s).wellFormed h).nodup_order.filter _

/-- **What a solve does to the flags**: of its agenda, it disables exactly what it suspends. -/
theorem resolution_marked [Relaxation.Lawful α ρ] (d : ResolvingSolver ρ) (h : s.WellFormed) :
    Conflict.Marked (d.lift s) (d.agenda s) (d.agenda s) (d.resolution s).2.suspended (d.resolution s).1.system ∧
      (d.resolution s).2.suspended.Nodup ∧ (d.resolution s).2.suspended ⊆ d.agenda s := by
  have htol : 0 < (d.task s).scope.tolerance := by
    show 0 < (d.lift s).tolerance
    rw [(d.lift_sameOutline s).tolerance]
    exact h.tolerance
  exact d.strategy.resolve_marked (r := d.task s) (nodup_agenda h) (fun id hid => (mem_agenda h).mp hid) htol _

instance [Relaxation.Lawful α ρ] : Solver.Lawful α (ResolvingSolver ρ) where
  outline d s h := (d.lift_sameOutline s).trans (d.resolution_marked h).1.outline

end ResolvingSolver

/-! ## The choices of the caller -/

/-- What the caller has chosen for each constraint: nothing yet, or to enable or to disable it. -/
abbrev Choices := ConstraintId → Option Bool

/-- The choices after one more. -/
def Choices.set (c : Choices) (id : ConstraintId) (b : Bool) : Choices :=
  fun other => if other = id then some b else c other

namespace Model

variable {α σ : Type} [Scalar α] [Solver α σ]

/-- The choices after an edit: a constraint comes with a flag, and a successful switch replaces it. -/
def chosen (m : Model α σ) (c : Choices) : Edit α → Choices
  | .add d => ((m.insert d.constraint).toOption.map fun x => c.set x.2 d.enabled).getD c
  | .setEnabled id b => ((m.setEnabled id b).toOption.map fun _ => c.set id b).getD c
  | _ => c

/-- The choices after a history. -/
def choices (m : Model α σ) (c : Choices) : List (Edit α) → Choices
  | [] => c
  | e :: edits => (m.apply e).choices (m.chosen c e) edits

theorem chosen_quiet (m : Model α σ) (c : Choices) {e : Edit α} (he : e.isQuiet = true) : m.chosen c e = c := by
  cases e with
  | add d => cases he
  | setEnabled id b => cases he
  | _ => rfl

end Model

namespace Model

variable {α ρ : Type} [Scalar α]

/-- A flag is set exactly when the caller chose so and the last solve did not suspend the constraint, and only what the
caller chose to enable is suspended. -/
structure Balanced (m : Model α (ResolvingSolver ρ)) (c : Choices) (d : ResolvingSolver ρ) : Prop where
  wellFormed : m.system.WellFormed
  solver : m.solver = some d
  flags : ∀ id, (m.system.constraint? id).isSome = true →
    (m.system.flag? id = some true ↔ c id = some true ∧ id ∉ d.suspended)
  nodup : d.suspended.Nodup
  suspended : ∀ id ∈ d.suspended, (m.system.constraint? id).isSome = true ∧ c id = some true

variable {m : Model α (ResolvingSolver ρ)} {c : Choices} {d : ResolvingSolver ρ}

theorem Balanced.flag_false (h : Balanced m c d) {id : ConstraintId} (hid : (m.system.constraint? id).isSome = true)
    (hc : c id ≠ some true) : m.system.flag? id = some false := by
  rw [← System.isSome_flag?] at hid
  obtain ⟨b, hb⟩ := Option.isSome_iff_exists.mp hid
  cases b with
  | false => exact hb
  | true =>
    rw [System.isSome_flag?] at hid
    exact absurd ((h.flags id hid).mp hb).1 hc

theorem Balanced.quiet (h : Balanced m c d) {t : System α} (ht : Quiet m.system t) :
    Balanced { m with system := t } c d := by
  have hsome : ∀ id, (t.constraint? id).isSome = (m.system.constraint? id).isSome := by
    intro id
    rw [← System.isSome_flag?, ← System.isSome_flag?, ht.flags]
  refine ⟨ht.wellFormed h.wellFormed, h.solver, ?_, h.nodup, ?_⟩
  · intro id hid
    rw [ht.flags]
    exact h.flags id (hsome id ▸ hid)
  · intro id hid
    rw [hsome]
    exact h.suspended id hid

theorem Balanced.add (h : Balanced m c d) {draft : Draft α} {t : System α} {id : ConstraintId}
    (ht : m.system.Inserted draft.constraint t id) : Balanced { m with system := t } (c.set id draft.enabled) d := by
  have hwf := h.wellFormed.inserted draft.nodup_vars ht
  -- an identifier is never used twice, so nothing is known of the new one
  have hnew : id ∉ d.suspended := fun hs => ht.fresh (System.lt_of_constraint? (h.suspended id hs).1)
  refine ⟨hwf, h.solver, ?_, h.nodup, ?_⟩
  · intro other hother
    show t.flag? other = _ ↔ _
    rw [System.flag?, ht.constraint]
    unfold Choices.set
    by_cases ho : other = id
    · subst ho
      simp [hnew, Draft.constraint, Constraint.setPivot]
    · have hlive : (m.system.constraint? other).isSome = true := by simpa [ht.constraint, ho] using hother
      simpa [ho, System.flag?] using h.flags other hlive
  · intro other hother
    have ho : other ≠ id := fun e => hnew (e ▸ hother)
    simpa [ht.constraint, Choices.set, ho] using h.suspended other hother

theorem Balanced.switch (h : Balanced m c d) {id : ConstraintId} (b : Bool)
    (hid : (m.system.constraint? id).isSome = true) :
    Balanced { m with
      system := m.system.modify id fun x => { x with enabled := b }
      solver := some { d with suspended := id.erase d.suspended } }
      (c.set id b) { d with suspended := id.erase d.suspended } := by
  have hwf := h.wellFormed.modify id (f := fun x => { x with enabled := b })
    fun _ hx => ⟨hx.distinct, hx.owned, hx.penalty⟩
  refine ⟨hwf, rfl, ?_, h.nodup.filter _, ?_⟩
  · intro other hother
    show (m.system.modify id _).flag? other = _ ↔ _
    rw [System.flag?_modify]
    unfold Choices.set
    by_cases ho : other = id
    · subst ho
      obtain ⟨x, hx⟩ := Option.isSome_iff_exists.mp hid
      simp [hx, ConstraintId.erase]
    · have hlive : (m.system.constraint? other).isSome = true := by simpa [System.constraint?_modify, ho] using hother
      simpa [ho, ConstraintId.erase] using h.flags other hlive
  · intro other hother
    obtain ⟨hmem, ho⟩ : other ∈ d.suspended ∧ other ≠ id := by simpa [ConstraintId.erase] using hother
    simpa [System.constraint?_modify, Choices.set, ho] using h.suspended other hmem

variable [Relaxation α ρ]

theorem Balanced.remove (h : Balanced m c d) {t : System α} {id : ConstraintId} (ht : m.system.Erased t id) :
    Balanced { m with system := t, solver := some (d.removed t id) } c (d.removed t id) := by
  refine ⟨h.wellFormed.erased ht, rfl, ?_, h.nodup.filter _, ?_⟩
  · intro other hother
    have ho : other ≠ id := by
      rintro rfl
      simp [ht.constraint] at hother
    have hlive : (m.system.constraint? other).isSome = true := by simpa [ht.constraint, ho] using hother
    simpa [System.flag?, ht.constraint, ho, ResolvingSolver.removed, ConstraintId.erase] using h.flags other hlive
  · intro other hother
    obtain ⟨hmem, ho⟩ : other ∈ d.suspended ∧ other ≠ id := by
      simpa [ResolvingSolver.removed, ConstraintId.erase] using hother
    simpa [ht.constraint, ho] using h.suspended other hmem

omit [Relaxation α ρ] in
theorem Balanced.mem_agenda (h : Balanced m c d) {id : ConstraintId} :
    id ∈ d.agenda m.system ↔ (m.system.constraint? id).isSome = true ∧ c id = some true := by
  rw [ResolvingSolver.mem_agenda h.wellFormed, ResolvingSolver.flag?_lift]
  by_cases hid : id ∈ d.suspended
  · obtain ⟨hlive, hc⟩ := h.suspended id hid
    obtain ⟨x, hx⟩ := Option.isSome_iff_exists.mp hlive
    simp [hid, hc, System.flag?, hx]
  · rw [if_neg hid]
    by_cases hlive : (m.system.constraint? id).isSome = true
    · simp [h.flags id hlive, hlive, hid]
    · have hflag : m.system.flag? id = none := by
        rw [← Option.not_isSome_iff_eq_none, System.isSome_flag?]
        exact hlive
      simp [hflag, hlive]

theorem Balanced.solve [Relaxation.Lawful α ρ] (h : Balanced m c d) :
    Balanced ⟨(d.solve m.system).system, some (d.solve m.system).solver, some (d.solve m.system).status⟩ c
      (d.solve m.system).solver := by
  obtain ⟨hmarked, hnodup, hsub⟩ := d.resolution_marked h.wellFormed
  have houtline : m.system.SameOutline (d.solve m.system).system := (d.lift_sameOutline m.system).trans hmarked.outline
  refine ⟨houtline.wellFormed h.wellFormed, rfl, ?_, hnodup, ?_⟩
  · intro id hid
    rw [houtline.isSome_constraint?] at hid
    rw [show (d.solve m.system).system.flag? id = _ from hmarked.flags id]
    by_cases hagenda : id ∈ d.agenda m.system
    · simp only [hagenda, if_true, true_and, (h.mem_agenda.mp hagenda).2, Option.some.injEq, decide_eq_true_eq]
      exact Iff.rfl
    · have hc : c id ≠ some true := fun hc => hagenda (h.mem_agenda.mpr ⟨hid, hc⟩)
      have hlift : (d.lift m.system).flag? id ≠ some true :=
        fun hf => hagenda ((ResolvingSolver.mem_agenda h.wellFormed).mpr hf)
      simp [hagenda, hc, hlift]
  · intro id hid
    rw [houtline.isSome_constraint?]
    exact h.mem_agenda.mp (hsub hid)

theorem Balanced.apply [Relaxation.Lawful α ρ] (h : Balanced m c d) (e : Edit α) :
    ∃ d', Balanced (m.apply e) (m.chosen c e) d' := by
  by_cases hq : e.isQuiet = true
  · obtain ⟨t, he, ht⟩ := m.apply_quiet hq
    rw [he, m.chosen_quiet c hq]
    exact ⟨d, h.quiet ht⟩
  cases e with
  | add draft =>
    rcases m.apply_add draft with ⟨x, hx, he⟩ | ⟨t, id, hx, ht, he⟩
    · rw [he, show m.chosen c (.add draft) = c by simp [chosen, hx, Except.toOption]]
      exact ⟨d, h⟩
    · rw [show m.chosen c (.add draft) = c.set id draft.enabled by simp [chosen, hx, Except.toOption], he, h.solver]
      have hadd := h.add (System.inserted_of_insert ht)
      exact ⟨d, hadd.wellFormed, rfl, hadd.flags, hadd.nodup, hadd.suspended⟩
  | remove id =>
    rcases m.apply_remove id with he | ⟨t, x, ht, he⟩
    · rw [he]; exact ⟨d, h⟩
    · rw [he, h.solver]
      exact ⟨_, h.remove (System.erased_of_erase ht)⟩
  | setEnabled id b =>
    rcases m.apply_setEnabled id b with ⟨x, hx, he⟩ | ⟨hx, hid, he⟩
    · rw [he, show m.chosen c (.setEnabled id b) = c by simp [chosen, hx, Except.toOption]]
      exact ⟨d, h⟩
    · rw [show m.chosen c (.setEnabled id b) = c.set id b by simp [chosen, hx, Except.toOption], he, h.solver]
      exact ⟨_, h.switch b hid⟩
  | solve =>
    refine ⟨(d.solve m.system).solver, ?_⟩
    show Balanced m.solve.1 c _
    rw [solve_of_solver h.solver]
    exact h.solve
  | _ => exact absurd rfl hq

theorem Balanced.replay [Relaxation.Lawful α ρ] (h : Balanced m c d) (edits : List (Edit α)) :
    ∃ d', Balanced (m.replay edits) (m.choices c edits) d' := by
  induction edits generalizing m c d with
  | nil => exact ⟨d, h⟩
  | cons e edits ih =>
    obtain ⟨d', h'⟩ := h.apply e
    exact ih h'

omit [Relaxation α ρ] in
theorem new_balanced [Scalar.Ordered α] (i : Nat) (strategy : Strategy) (engine : ρ) (reset : Bool)
    (budget : Option Nat) :
    Balanced (Model.new i (some (ResolvingSolver.new strategy engine reset budget)) : Model α (ResolvingSolver ρ))
      (fun _ => none) (ResolvingSolver.new strategy engine reset budget) where
  wellFormed := System.empty_wellFormed i
  solver := rfl
  flags id hid := by simp [Model.new, System.empty, System.constraint?] at hid
  nodup := List.nodup_nil
  suspended id hid := by cases hid

/-- **Flags follow the choices of the caller.**  After any history, a constraint is enabled exactly when the caller's
latest choice says so and the last solve did not suspend it.  What is suspended is listed once, is live, and was left
enabled by the caller.  The next solve does not enable what the caller disabled, and it hands to its strategy, enabled,
just what the caller left enabled. -/
theorem replay_flags_spec [Scalar.Ordered α] {γ : Type} [Generator γ] (i : Nat) (strategy : Strategy)
    (engine : Engine α γ) (reset : Bool) (budget : Option Nat) (edits : List (Edit α)) :
    let start := Model.new i (some (ResolvingSolver.new strategy engine reset budget))
    let m := start.replay edits
    let choice := start.choices (fun _ => none) edits
    ∃ d, m.solver = some d ∧
      (∀ id, (m.system.constraint? id).isSome = true →
        (m.system.flag? id = some true ↔ choice id = some true ∧ id ∉ d.suspended)) ∧
      d.suspended.Nodup ∧
      (∀ id ∈ d.suspended, (m.system.constraint? id).isSome = true ∧ choice id = some true) ∧
      (∀ id, (m.system.constraint? id).isSome = true → choice id ≠ some true →
        m.solve.1.system.flag? id = some false) ∧
      m.solve.1.system = (d.strategy.resolve (d.task m.system) (d.agenda m.system)
        (d.budget.getD (Relaxation.budget d.engine))).1.system ∧
      (∀ id, id ∈ d.agenda m.system ↔ (m.system.constraint? id).isSome = true ∧ choice id = some true) ∧
      (∀ id ∈ d.agenda m.system, (d.task m.system).system.flag? id = some true) := by
  intro start m choice
  obtain ⟨d, h⟩ : ∃ d, Balanced m choice d := (new_balanced i strategy engine reset budget).replay edits
  have hsolve : m.solve.1.system = (d.solve m.system).system := by
    rw [solve_of_solver h.solver]
    rfl
  refine ⟨d, h.solver, h.flags, h.nodup, h.suspended, ?_, hsolve, fun id => h.mem_agenda, ?_⟩
  · intro id hid hchoice
    have hkept : m.system.SameOutline m.solve.1.system := solve_sameOutline h.wellFormed
    rw [hsolve] at hkept ⊢
    exact h.solve.flag_false ((hkept.isSome_constraint? id).trans hid) hchoice
  · intro id hid
    exact (ResolvingSolver.mem_agenda h.wellFormed).mp hid

/-- Two equalities over binary64 that contradict each other: after a solve the second one is disabled, although the
caller left it enabled, and the next solve takes it up again. -/
theorem replay_flags_of_contradiction :
    let sum : List (Term Float) := [⟨1, ⟨0, 0⟩⟩]
    let edits : List (Edit Float) := [.addVariable none, .add ⟨sum, .eq, .fixed 4, 1, true, none, none⟩,
      .add ⟨sum, .eq, .fixed 6, 0.5, true, none, none⟩, .solve]
    let engine : Engine Float KeyStream := .kaczmarz ⟨2, 1, 1, []⟩
    let m := (Model.new 0 (some (ResolvingSolver.new .adding engine false none))).replay edits
    m.system.flag? ⟨1⟩ = some false ∧ ∃ d, m.solver = some d ∧ d.suspended = [⟨1⟩] ∧ ⟨1⟩ ∈ d.agenda m.system := by
  intro sum edits engine m
  have hflag : m.system.flag? ⟨1⟩ = some false := by decide +kernel
  have hsuspended : m.solver.map (·.suspended) = some [⟨1⟩] := by decide +kernel
  obtain ⟨d, hd, -, -, hlive, -, -, hagenda, -⟩ := replay_flags_spec 0 .adding engine false none edits
  have hd' : d.suspended = [⟨1⟩] := by
    rw [hd] at hsuspended
    exact Option.some.inj hsuspended
  exact ⟨hflag, d, hd, hd', (hagenda ⟨1⟩).mpr (hlive ⟨1⟩ (by simp [hd']))⟩

end Model

end SoftLinear
