import SoftLinear.Proofs.Handles

/-!
# When another solver takes over

A resolving solver keeps a record of what it suspended; the flags themselves stand in the system.  When another solver is
installed the record goes with the old one and the flags stay, so that the new solver takes what was suspended for
disabled by the caller.

* `Model.stranded` lists what was suspended by a solver when it was replaced, and was not switched by the caller since;
* the balance of flags and choices (`Model.Balanced`) holds along every run, once a stranded constraint is counted as
  disabled (`Model.Accounted.act`);
* so the agenda of a solve misses exactly the stranded constraints (`Model.perform_agenda_spec`), and it is what the
  caller left enabled as long as nobody is stranded.
-/

namespace SoftLinear

/-! ## Suspensions of any solver -/

namespace AnySolver

variable {α γ : Type} [Scalar α] [Generator γ]

/-- The resolving solver that a solver is as far as suspensions go; one that does not resolve conflicts has suspended
nothing. -/
def record : Option (AnySolver (Engine α γ)) → ResolvingSolver (Engine α γ)
  | some (resolving d) => d
  | _ => .new .adding (.kaczmarz .standard) false none

variable (x : Option (AnySolver (Engine α γ))) (s : System α) (id : ConstraintId)

theorem record_added : record (x.map fun x => Solver.added x s id) = record x := by
  rcases x with _ | _ | d <;> rfl

theorem record_enabled (b : Bool) : record (x.map fun x => Solver.enabled x s id b) =
    { record x with suspended := id.erase (record x).suspended } := by
  rcases x with _ | _ | d <;> rfl

theorem record_removed (c : Constraint α) : record (x.map fun x => Solver.removed x s id c) = (record x).removed s id := by
  rcases x with _ | _ | d <;> rfl

end AnySolver

/-- The choices with the constraints of a list counted as disabled. -/
def Choices.without (c : Choices) (ids : List ConstraintId) : Choices := fun id => if id ∈ ids then some false else c id

namespace Choices

variable (c : Choices) (ids : List ConstraintId) (id : ConstraintId) (b : Bool)

theorem without_eq_some_true : c.without ids id = some true ↔ c id = some true ∧ id ∉ ids := by
  unfold without
  split
  · rename_i h
    simp [h]
  · rename_i h
    simp [h]

theorem without_set (h : id ∉ ids) : (c.set id b).without ids = (c.without ids).set id b := by
  funext other
  by_cases ho : other = id
  · simp [without, set, ho, h]
  · simp [without, set, ho]

theorem without_set_erase : (c.set id b).without (id.erase ids) = (c.without ids).set id b := by
  funext other
  by_cases ho : other = id
  · simp [without, set, ho]
  · simp [without, set, ho]

end Choices

/-! ## Runs in which solvers are replaced -/

/-- Whether an action is an edit, or the installation of a solver that has not suspended anything yet. -/
def Action.isOpen {α ρ : Type} : Action α (AnySolver ρ) → Bool
  | .edit _ => true
  | .install (.direct _) => true
  | .install (.resolving d) => d.suspended.isEmpty
  | .flag .. => false

namespace Model

variable {α γ : Type} [Scalar α] [Generator γ]

/-- The choices of the caller after an action. -/
def decided (m : Model α (AnySolver (Engine α γ))) (c : Choices) : Action α (AnySolver (Engine α γ)) → Choices
  | .edit e => m.chosen c e
  | _ => c

/-- The choices of the caller after a run. -/
def decisions (m : Model α (AnySolver (Engine α γ))) (c : Choices) : List (Action α (AnySolver (Engine α γ))) → Choices
  | [] => c
  | a :: actions => (m.act a).decisions (m.decided c a) actions

/-- The stranded constraints after an action: a solver that is replaced leaves behind what it suspended, and a switch by
the caller settles what becomes of a constraint. -/
def strands (m : Model α (AnySolver (Engine α γ))) (lost : List ConstraintId) :
    Action α (AnySolver (Engine α γ)) → List ConstraintId
  | .install _ => lost ++ (AnySolver.record m.solver).suspended
  | .edit (.setEnabled id b) => ((m.setEnabled id b).toOption.map fun _ => id.erase lost).getD lost
  | _ => lost

/-- The constraints that were suspended by a solver when it was replaced, and that the caller has not switched since. -/
def stranded (m : Model α (AnySolver (Engine α γ))) (lost : List ConstraintId) :
    List (Action α (AnySolver (Engine α γ))) → List ConstraintId
  | [] => lost
  | a :: actions => (m.act a).stranded (m.strands lost a) actions

theorem Balanced.congr {ρ : Type} {m m' : Model α (ResolvingSolver ρ)} {c : Choices} {d : ResolvingSolver ρ}
    (h : Balanced m c d) (hs : m'.system = m.system) (hd : m'.solver = some d) : Balanced m' c d :=
  ⟨hs ▸ h.wellFormed, hd, hs ▸ h.flags, h.nodup, hs ▸ h.suspended⟩

/-- The model with the record of its solver in the place of the solver. -/
def recorded (m : Model α (AnySolver (Engine α γ))) : Model α (ResolvingSolver (Engine α γ)) :=
  ⟨m.system, some (AnySolver.record m.solver), m.lastStatus⟩

/-- Flags, choices and suspensions are in balance once the stranded constraints are counted as disabled. -/
structure Accounted (m : Model α (AnySolver (Engine α γ))) (c : Choices) (lost : List ConstraintId) : Prop where
  balanced : m.recorded.Balanced (c.without lost) (AnySolver.record m.solver)
  placed : ∀ id ∈ lost, id.index < m.system.constraints.size

namespace Accounted

variable {m : Model α (AnySolver (Engine α γ))} {c : Choices} {lost : List ConstraintId}

omit [Generator γ] in
theorem quiet (h : Accounted m c lost) {t : System α} (ht : Quiet m.system t) (status : Option Status) :
    (recorded ⟨t, m.solver, status⟩).Balanced (c.without lost) (AnySolver.record m.solver) :=
  (h.balanced.quiet ht).congr rfl rfl

theorem add (h : Accounted m c lost) {draft : Draft α} {t : System α} {id : ConstraintId}
    (ht : m.system.Inserted draft.constraint t id) :
    let solver := m.solver.map fun x => Solver.added x t id
    (recorded { m with system := t, solver := solver }).Balanced ((c.set id draft.enabled).without lost)
      (AnySolver.record solver) := by
  -- an identifier is never used twice, so the new one is not stranded
  have hnew : id ∉ lost := fun hid => ht.fresh (h.placed id hid)
  simp only [AnySolver.record_added, c.without_set lost id draft.enabled hnew]
  refine (h.balanced.add ht).congr rfl ?_
  simp only [recorded, AnySolver.record_added]

theorem switch (h : Accounted m c lost) {id : ConstraintId} (b : Bool)
    (hid : (m.system.constraint? id).isSome = true) :
    let t := m.system.modify id fun x => { x with enabled := b }
    let solver := m.solver.map fun x => Solver.enabled x t id b
    (recorded { m with system := t, solver := solver }).Balanced ((c.set id b).without (id.erase lost))
      (AnySolver.record solver) := by
  simp only [AnySolver.record_enabled, c.without_set_erase lost id b]
  refine (h.balanced.switch b hid).congr rfl ?_
  simp only [recorded, AnySolver.record_enabled]

theorem remove (h : Accounted m c lost) {t : System α} {id : ConstraintId} (ht : m.system.Erased t id)
    (x : Constraint α) :
    let solver := m.solver.map fun y => Solver.removed y t id x
    (recorded { m with system := t, solver := solver }).Balanced (c.without lost) (AnySolver.record solver) := by
  simp only [AnySolver.record_removed]
  refine (h.balanced.remove ht).congr rfl ?_
  simp only [recorded, AnySolver.record_removed]

theorem solve (h : Accounted m c lost) :
    m.solve.1.recorded.Balanced (c.without lost) (AnySolver.record m.solve.1.solver) := by
  obtain ⟨s, solver, status⟩ := m
  rcases solver with _ | d | d
  · exact h.quiet (quiet_refl s) _
  · -- a relaxation alone writes no flags
    have hrules := (d.task_rules s).trans (Engine.relax_rules (d.task s) (Relaxation.budget (d.task s).engine))
    exact (h.quiet (quiet_of_rules hrules) (some (Solver.solve d s).status)).congr rfl rfl
  · exact h.balanced.solve.congr rfl rfl

omit [Generator γ] in
/-- The solver that is installed finds the flags as they are and knows of no suspension. -/
theorem install (h : Accounted m c lost) {x : AnySolver (Engine α γ)}
    (hx : (AnySolver.record (some x)).suspended = []) :
    (recorded { m with solver := some x }).Balanced
      (c.without (lost ++ (AnySolver.record m.solver).suspended)) (AnySolver.record (some x)) := by
  refine ⟨h.balanced.wellFormed, rfl, fun id hid => ?_, ?_, ?_⟩
  · have hflag := h.balanced.flags id hid
    rw [Choices.without_eq_some_true] at hflag ⊢
    simp only [hx, List.mem_append, not_or, List.not_mem_nil, not_false_eq_true, and_true]
    exact hflag.trans and_assoc
  · rw [hx]
    exact List.nodup_nil
  · rw [hx]
    exact List.forall_mem_nil _

/-- Whether edited, solved or given another solver, a model stays in balance. -/
theorem act_balanced (h : Accounted m c lost) {a : Action α (AnySolver (Engine α γ))} (ha : a.isOpen = true) :
    (m.act a).recorded.Balanced ((m.decided c a).without (m.strands lost a)) (AnySolver.record (m.act a).solver) := by
  cases a with
  | flag id b => cases ha
  | install x =>
    cases x with
    | direct d => exact h.install rfl
    | resolving d => exact h.install (List.isEmpty_iff.mp ha)
  | edit e =>
    by_cases hq : e.isQuiet = true
    · obtain ⟨t, he, ht⟩ := m.apply_quiet hq
      have hlost : m.strands lost (.edit e) = lost := by
        cases e with
        | setEnabled id b => cases hq
        | _ => rfl
      rw [hlost, decided, m.chosen_quiet c hq, Model.act, he]
      exact h.quiet ht m.lastStatus
    cases e with
    | add draft =>
      rcases m.apply_add draft with ⟨x, hx, he⟩ | ⟨t, id, hx, ht, he⟩
      · -- an edit that is refused decides nothing
        rw [Model.act, he, show m.decided c (.edit (.add draft)) = c by simp [decided, chosen, hx, Except.toOption]]
        exact h.balanced
      · have hchoice : m.decided c (.edit (.add draft)) = c.set id draft.enabled := by
          simp [decided, chosen, hx, Except.toOption]
        rw [Model.act, hchoice, he]
        exact h.add (System.inserted_of_insert ht)
    | remove id =>
      rcases m.apply_remove id with he | ⟨t, x, ht, he⟩
      · rw [Model.act, he]
        exact h.balanced
      · rw [Model.act, he]
        exact h.remove (System.erased_of_erase ht) x
    | setEnabled id b =>
      rcases m.apply_setEnabled id b with ⟨x, hx, he⟩ | ⟨hx, hid, he⟩
      · have hchoice : m.decided c (.edit (.setEnabled id b)) = c := by simp [decided, chosen, hx, Except.toOption]
        have hlost : m.strands lost (.edit (.setEnabled id b)) = lost := by simp [strands, hx, Except.toOption]
        rw [Model.act, he, hchoice, hlost]
        exact h.balanced
      · have hchoice : m.decided c (.edit (.setEnabled id b)) = c.set id b := by
          simp [decided, chosen, hx, Except.toOption]
        have hlost : m.strands lost (.edit (.setEnabled id b)) = id.erase lost := by
          simp [strands, hx, Except.toOption]
        rw [hchoice, hlost, Model.act, he]
        exact h.switch b hid
    | solve => exact h.solve
    | _ => exact absurd rfl hq

theorem mem_strands (m : Model α (AnySolver (Engine α γ))) {a : Action α (AnySolver (Engine α γ))} {id : ConstraintId}
    (hid : id ∈ m.strands lost a) : id ∈ lost ∨ id ∈ (AnySolver.record m.solver).suspended := by
  cases a with
  | install x => exact List.mem_append.mp hid
  | flag other b => exact .inl hid
  | edit e =>
    cases e with
    | setEnabled other b =>
      left
      simp only [strands] at hid
      cases hx : m.setEnabled other b with
      | error e => simpa [hx, Except.toOption] using hid
      | ok m' =>
        simp only [hx, Except.toOption, Option.map_some, Option.getD_some, ConstraintId.mem_erase] at hid
        exact hid.1
    | _ => exact .inl hid

theorem act (h : Accounted m c lost) {a : Action α (AnySolver (Engine α γ))} (ha : a.isOpen = true) :
    Accounted (m.act a) (m.decided c a) (m.strands lost a) := by
  refine ⟨h.act_balanced ha, fun id hid => ?_⟩
  have hplaced : id.index < m.system.constraints.size := by
    rcases mem_strands m hid with hold | hnew
    · exact h.placed id hold
    · exact System.lt_of_constraint? (h.balanced.suspended id hnew).1
  have hwf : m.system.WellFormed := h.balanced.wellFormed
  exact Nat.lt_of_lt_of_le hplaced (size_le_act hwf a)

theorem perform (h : Accounted m c lost) {actions : List (Action α (AnySolver (Engine α γ)))}
    (hactions : ∀ a ∈ actions, a.isOpen = true) :
    Accounted (m.perform actions) (m.decisions c actions) (m.stranded lost actions) := by
  induction actions generalizing m c lost with
  | nil => exact h
  | cons a actions ih =>
    obtain ⟨ha, hactions⟩ := List.forall_mem_cons.mp hactions
    exact ih (h.act ha) hactions

end Accounted

omit [Generator γ] in
theorem new_accounted [Scalar.Ordered α] (i : Nat) :
    Accounted (Model.new i none : Model α (AnySolver (Engine α γ))) (fun _ => none) [] where
  balanced := by
    refine ⟨System.empty_wellFormed i, rfl, fun id hid => ?_, List.nodup_nil, fun id hid => ?_⟩
    · simp [recorded, Model.new, System.empty, System.constraint?] at hid
    · cases hid
  placed id hid := by cases hid

/-- **What a solve takes up after solvers were replaced.**  In any run of edits, solves and installations of solvers,
whenever a resolving solver solves, the list that it hands to its strategy contains exactly the live constraints that the
caller left enabled, without those that are stranded: suspended by a solver when it was replaced, and not switched by the
caller since. -/
theorem perform_agenda_spec [Scalar.Ordered α] (i : Nat) (actions : List (Action α (AnySolver (Engine α γ))))
    (hactions : ∀ a ∈ actions, a.isOpen = true) :
    let start : Model α (AnySolver (Engine α γ)) := Model.new i none
    let m := start.perform actions
    let choice := start.decisions (fun _ => none) actions
    ∀ d, m.solver = some (.resolving d) →
      m.solve.1.system = (d.strategy.resolve (d.task m.system) (d.agenda m.system)
        (d.budget.getD (Relaxation.budget d.engine))).1.system ∧
      ∀ id, id ∈ d.agenda m.system ↔
        (m.system.constraint? id).isSome = true ∧ choice id = some true ∧ id ∉ start.stranded [] actions := by
  intro start m choice d hd
  have haccount : Accounted m choice (start.stranded [] actions) := (new_accounted i).perform hactions
  have hbalanced := haccount.balanced
  rw [hd] at hbalanced
  refine ⟨?_, fun id => ?_⟩
  · rw [solve_of_solver hd]
    rfl
  · rw [← Choices.without_eq_some_true]
    exact hbalanced.mem_agenda

omit [Scalar α] [Generator γ] in
theorem exists_resolving {m : Model α (AnySolver (Engine α γ))}
    (h : (m.solver.map fun x => match x with
      | .direct _ => false
      | .resolving _ => true) = some true) : ∃ d, m.solver = some (.resolving d) := by
  rcases hm : m.solver with _ | _ | d
  · rw [hm] at h
    cases h
  · rw [hm] at h
    cases h
  · exact ⟨d, rfl⟩

/-- Three equalities over binary64 that contradict each other: the solver that suspends two of them is replaced, and the
caller switches one of these on again.  The next solve takes up that one and not the other. -/
theorem perform_agenda_of_switch :
    let sum : List (Term Float) := [⟨1, ⟨0, 0⟩⟩]
    let solver : AnySolver (Engine Float KeyStream) := .resolving (.new .adding (.kaczmarz ⟨2, 1, 1, []⟩) false none)
    let m := (Model.new 0 none).perform [.edit (.addVariable none),
      .edit (.add ⟨sum, .eq, .fixed 4, 1, true, none, none⟩), .edit (.add ⟨sum, .eq, .fixed 6, 0.5, true, none, none⟩),
      .edit (.add ⟨sum, .eq, .fixed 8, 0.25, true, none, none⟩), .install solver, .edit .solve, .install solver,
      .edit (.setEnabled ⟨1⟩ true)]
    ∃ d, m.solver = some (.resolving d) ∧ ⟨1⟩ ∈ d.agenda m.system ∧ ⟨2⟩ ∉ d.agenda m.system := by
  intro sum solver m
  obtain ⟨d, hd⟩ : ∃ d, m.solver = some (.resolving d) := exists_resolving (by decide +kernel)
  have hspec := (perform_agenda_spec 0 [.edit (.addVariable none),
    .edit (.add ⟨sum, .eq, .fixed 4, 1, true, none, none⟩), .edit (.add ⟨sum, .eq, .fixed 6, 0.5, true, none, none⟩),
    .edit (.add ⟨sum, .eq, .fixed 8, 0.25, true, none, none⟩), .install solver, .edit .solve, .install solver,
    .edit (.setEnabled ⟨1⟩ true)] (by decide +kernel) d hd).2
  refine ⟨d, hd, (hspec _).mpr ?_, fun h => absurd ((hspec _).mp h).2.2 ?_⟩
  · decide +kernel
  · decide +kernel

/-- A solver is replaced while it keeps one of two contradicting equalities suspended, and the other equality is removed.
The caller left the suspended one enabled and nothing stands against it any more, yet the next solve leaves it out. -/
theorem stranded_after_replacement :
    let sum : List (Term Float) := [⟨1, ⟨0, 0⟩⟩]
    let solver : AnySolver (Engine Float KeyStream) := .resolving (.new .adding (.kaczmarz ⟨2, 1, 1, []⟩) false none)
    let actions : List (Action Float (AnySolver (Engine Float KeyStream))) := [.edit (.addVariable none),
      .edit (.add ⟨sum, .eq, .fixed 4, 1, true, none, none⟩), .edit (.add ⟨sum, .eq, .fixed 6, 1, true, none, none⟩),
      .install solver, .edit .solve, .install solver, .edit (.remove ⟨0⟩)]
    let m := (Model.new 0 none).perform actions
    (m.system.constraint? ⟨1⟩).isSome = true ∧ (Model.new 0 none).decisions (fun _ => none) actions ⟨1⟩ = some true ∧
      (∃ d, m.solver = some (.resolving d) ∧ ⟨1⟩ ∉ d.agenda m.system) ∧
      m.solve.1.system.flag? ⟨1⟩ = some false := by
  intro sum solver actions m
  refine ⟨by decide +kernel, by decide +kernel, ?_, by decide +kernel⟩
  obtain ⟨d, hd⟩ : ∃ d, m.solver = some (.resolving d) := exists_resolving (by decide +kernel)
  have hagenda : (m.solver.map fun x => match x with
      | .direct _ => true
      | .resolving d => decide (⟨1⟩ ∉ d.agenda m.system)) = some true := by decide +kernel
  rw [hd] at hagenda
  exact ⟨d, hd, of_decide_eq_true (Option.some.inj hagenda)⟩

end Model

end SoftLinear
