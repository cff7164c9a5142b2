import SoftLinear.Proofs.Frame

/-!
# Handles stay what they are

A handle is plain data, so nothing can be taken back when its object goes.  What keeps a stale handle from naming something
else is that nothing is ever put in the place of what is gone:

* a constraint gets the next place and leaves it empty when it is removed, so the identifiers that are handed out along a
  run ascend (`Model.issued_ascending`) and an emptied place stays empty (`Model.perform_spent`);
* a variable keeps its slot for good.  The name and the value in it change when the caller says so or a solve works on them
  (`Model.perform_slot`).

Both are proved from what one action can do to the system (`Model.Effect`).
-/

namespace SoftLinear

/-! ## What an action does -/

namespace Action

variable {α σ : Type}

/-- Whether an action names a variable anew. -/
def renames (v : Variable) : Action α σ → Bool
  | .edit (.rename w _) => w = v
  | _ => false

/-- Whether the caller writes the value of a variable in an action. -/
def writes (v : Variable) : Action α σ → Bool
  | .edit (.setValue w _) => w = v
  | .edit (.storeValues _) | .edit .resetValues | .edit .fillUnset => true
  | _ => false

/-- Whether an action adds a constraint that names a variable. -/
def attaches [Scalar α] (v : Variable) : Action α σ → Bool
  | .edit (.add d) => v ∈ d.constraint.terms.map (·.var)
  | _ => false

def isSolve : Action α σ → Bool
  | .edit .solve => true
  | _ => false

theorem eq_solve {a : Action α σ} (h : a.isSolve = true) : a = .edit .solve := by
  cases a with
  | edit e =>
    cases e with
    | solve => rfl
    | _ => cases h
  | install x => cases h
  | flag id b => cases h

end Action

namespace Model

variable {α σ : Type} [Scalar α] [Solver α σ] {m : Model α σ} {v : Variable} {slot : Slot α}

/-- The identifier that an action returns, if it adds a constraint. -/
def returned? (m : Model α σ) : Action α σ → Option ConstraintId
  | .edit (.add d) => (m.insert d.constraint).toOption.map (·.2)
  | _ => none

/-- The identifiers that are returned along a run. -/
def issued (m : Model α σ) : List (Action α σ) → List ConstraintId
  | [] => []
  | a :: actions => (m.returned? a).toList ++ (m.act a).issued actions

/-- **What an action can do to the system.** -/
inductive Effect (m : Model α σ) : Action α σ → System α → Prop where
  | quiet {e : Edit α} (he : e.isQuiet = true) : Effect m (.edit e) (m.apply e).system
  | added {d : Draft α} {t : System α} {id : ConstraintId} (h : m.system.insert d.constraint = .ok (t, id)) :
    Effect m (.edit (.add d)) t
  | removed {id : ConstraintId} {t : System α} {c : Constraint α} (h : m.system.erase id = .ok (t, c)) :
    Effect m (.edit (.remove id)) t
  /-- A constraint is switched, with or without the solver hearing of it. -/
  | switched {a : Action α σ} (ha : m.returned? a = none) (id : ConstraintId) (b : Bool) :
    Effect m a (m.system.modify id fun c => { c with enabled := b })
  | solved : Effect m (.edit .solve) m.solve.1.system
  /-- Nothing is done: the edit is refused, or only a solver is installed. -/
  | kept {a : Action α σ} (ha : m.returned? a = none) : Effect m a m.system

theorem act_effect (m : Model α σ) (a : Action α σ) : m.Effect a (m.act a).system := by
  cases a with
  | install x => exact .kept rfl
  | flag id b => exact .switched rfl id b
  | edit e =>
    by_cases hq : e.isQuiet = true
    · exact .quiet hq
    cases e with
    | add d =>
      show m.Effect _ (m.apply (.add d)).system
      rcases m.apply_add d with ⟨e, herror, he⟩ | ⟨t, id, -, hi, he⟩
      · rw [he]
        exact .kept (by simp [returned?, herror, Except.toOption])
      · rw [he]
        exact .added hi
    | remove id =>
      show m.Effect _ (m.apply (.remove id)).system
      rcases m.apply_remove id with he | ⟨t, c, hi, he⟩
      · rw [he]
        exact .kept rfl
      · rw [he]
        exact .removed hi
    | setEnabled id b =>
      show m.Effect _ (m.apply (.setEnabled id b)).system
      rcases m.apply_setEnabled id b with ⟨-, -, he⟩ | ⟨-, -, he⟩
      · rw [he]
        exact .kept rfl
      · rw [he]
        exact .switched rfl id b
    | solve => exact .solved
    | _ => exact absurd rfl hq

/-! ## Places -/

theorem returned?_add {d : Draft α} {t : System α} {id : ConstraintId} (h : m.system.insert d.constraint = .ok (t, id)) :
    m.returned? (.edit (.add d)) = some id := by
  simp [returned?, Model.insert, h, bind, Except.bind, pure, Except.pure, Except.toOption]

theorem returned?_quiet {e : Edit α} (he : e.isQuiet = true) : m.returned? (.edit e) = none := by
  cases e with
  | add d => cases he
  | _ => rfl

variable [Solver.Lawful α σ]

/-- **What an action does to the places**: it returns the next identifier and fills its place, or it returns none, adds no
place and fills none. -/
theorem act_places (hs : m.system.WellFormed) (a : Action α σ) :
    (∃ id, m.returned? a = some id ∧ id.index = m.system.constraints.size ∧
      (m.act a).system.constraints.size = id.index + 1 ∧
      ∀ other, other ≠ id → (m.act a).system.constraint? other = m.system.constraint? other) ∨
    (m.returned? a = none ∧ (m.act a).system.constraints.size = m.system.constraints.size ∧
      ∀ id, m.system.constraint? id = none → (m.act a).system.constraint? id = none) := by
  have heffect := m.act_effect a
  generalize (m.act a).system = t at heffect ⊢
  cases heffect with
  | quiet he =>
    -- a place is empty exactly if it has no flag, and a quiet edit keeps the flags
    obtain ⟨t, ht, hrevised⟩ := m.apply_revised he
    rw [ht]
    refine .inr ⟨returned?_quiet he, hrevised.places, fun id hid => ?_⟩
    have hflag := hrevised.flag? id
    rwa [System.flag?, System.flag?, hid, Option.map_none, Option.map_eq_none_iff] at hflag
  | added h =>
    have hinserted := System.inserted_of_insert h
    refine .inl ⟨_, returned?_add h, by rw [hinserted.id_eq], ?_, fun other hother => ?_⟩
    · rw [(System.insert_spec h).2, hinserted.id_eq]
    · rw [hinserted.constraint, if_neg hother]
  | removed h =>
    refine .inr ⟨rfl, (System.erase_spec h).2, fun other hother => ?_⟩
    rw [(System.erased_of_erase h).constraint, hother, ite_self]
  | switched ha id b => exact .inr ⟨ha, System.size_modify _ id _, fun _ h => System.constraint?_modify_of_none h _⟩
  | solved =>
    have houtline := solve_sameOutline (m := m) hs
    refine .inr ⟨rfl, houtline.places, fun id hid => ?_⟩
    have hsome := houtline.isSome_constraint? id
    rw [hid] at hsome
    exact Option.not_isSome_iff_eq_none.mp (by simp [hsome])
  | kept ha => exact .inr ⟨ha, rfl, fun _ h => h⟩

theorem size_le_act (hs : m.system.WellFormed) (a : Action α σ) :
    m.system.constraints.size ≤ (m.act a).system.constraints.size := by
  rcases act_places hs a with ⟨new, -, hnew, hsize, -⟩ | ⟨-, hsize, -⟩
  · omega
  · omega

/-- **The identifiers that are returned along a run ascend**, from the next place on. -/
theorem issued_ascending (hs : m.system.WellFormed ∧ m.system.Linked) (actions : List (Action α σ)) :
    (m.issued actions).Pairwise (·.index < ·.index) ∧
      ∀ id ∈ m.issued actions, m.system.constraints.size ≤ id.index := by
  induction actions generalizing m with
  | nil => exact ⟨List.Pairwise.nil, fun _ hid => by cases hid⟩
  | cons a actions ih =>
    obtain ⟨hascending, hlater⟩ := ih (m.act_linked a hs.1 hs.2)
    rcases act_places hs.1 a with ⟨new, hreturned, hnew, hsize, -⟩ | ⟨hreturned, hsize, -⟩
    · simp only [issued, hreturned, Option.toList_some, List.singleton_append, List.pairwise_cons, List.forall_mem_cons]
      refine ⟨⟨fun id hid => ?_, hascending⟩, by omega, fun id hid => ?_⟩
      · have := hlater id hid
        omega
      · have := hlater id hid
        omega
    · simp only [issued, hreturned, Option.toList_none, List.nil_append]
      exact ⟨hascending, fun id hid => hsize ▸ hlater id hid⟩

/-- **A place that was emptied stays empty.** -/
theorem perform_spent {id : ConstraintId} (hs : m.system.WellFormed ∧ m.system.Linked) (h : m.system.Spent id)
    (actions : List (Action α σ)) : (m.perform actions).system.Spent id := by
  refine (perform_induction (P := fun m => (m.system.WellFormed ∧ m.system.Linked) ∧ m.system.Spent id) ?_
    ⟨hs, h⟩ actions).2
  rintro m a ⟨hs, hlt, hnone⟩
  refine ⟨m.act_linked a hs.1 hs.2, ?_⟩
  rcases act_places hs.1 a with ⟨new, -, hnew, hsize, hothers⟩ | ⟨-, hsize, hempty⟩
  · have hne : id ≠ new := by
      rintro rfl
      omega
    exact ⟨by omega, (hothers id hne).trans hnone⟩
  · exact ⟨by omega, hempty id hnone⟩

/-- The model knows no constraint by an identifier, and says so in every call. -/
structure Unknown (m : Model α σ) (id : ConstraintId) : Prop where
  constraint : m.system.constraint? id = none
  erase : m.erase id = .error (.unknownConstraint id)
  setEnabled : ∀ b, m.setEnabled id b = .error (.unknownConstraint id)
  setPenalty : ∀ penalty, m.setPenalty id penalty = .error (.unknownConstraint id)
  setRightSide : ∀ rightSide, m.setRightSide id rightSide = .error (.unknownConstraint id)
  error : m.system.error id = .error (.unknownConstraint id)
  isSatisfied : ∀ tolerance, m.system.isSatisfied id tolerance = .error (.unknownConstraint id)

omit [Solver.Lawful α σ] in
theorem unknown_of_none {id : ConstraintId} (h : m.system.constraint? id = none) : m.Unknown id where
  constraint := h
  erase := by simp [Model.erase, System.erase, System.require, h, bind, Except.bind]
  setEnabled b := by simp [Model.setEnabled, System.setEnabled, System.require, h, bind, Except.bind]
  setPenalty penalty := by simp [Model.setPenalty, System.setPenalty, System.require, h, bind, Except.bind]
  setRightSide rightSide := by simp [Model.setRightSide, System.setRightSide, System.require, h, bind, Except.bind]
  error := by simp [System.error, System.require, h, Except.map]
  isSatisfied tolerance := by simp [System.isSatisfied, System.require, h, Except.map]

/-! ## Slots along a run -/

/-- The slot of a variable is still there, and an action has changed of it only what it writes. -/
def SlotAfter (v : Variable) (slot : Slot α) (a : Action α σ) (t : System α) : Prop :=
  ∃ slot', t.slot? v = some slot' ∧ (a.renames v = false → slot'.name = slot.name) ∧
    (a.writes v = false → a.isSolve = false → slot'.value = slot.value)

omit [Scalar α] [Solver α σ] [Solver.Lawful α σ] in
theorem slotAfter_of_slot? {a : Action α σ} {t : System α} (h : t.slot? v = some slot) : SlotAfter v slot a t :=
  ⟨slot, h, fun _ => rfl, fun _ _ => rfl⟩

omit [Scalar α] [Solver α σ] [Solver.Lawful α σ] in
theorem slotAfter_of_sameFaces {a : Action α σ} {s t : System α} (ht : s.SameFaces t) (h : s.slot? v = some slot) :
    SlotAfter v slot a t := by
  obtain ⟨slot', hslot', hname, hvalue⟩ := ht.slot? h
  exact ⟨slot', hslot', fun _ => hname, fun _ _ => hvalue⟩

omit [Scalar α] [Solver α σ] [Solver.Lawful α σ] in
theorem slotAfter_of_revised [Scalar α] {e : Edit α} {s t : System α} (ht : s.Revised e t) (h : s.slot? v = some slot) :
    SlotAfter v slot (.edit e : Action α σ) t := by
  obtain ⟨slot', hslot', hrevised⟩ := ht.slots v slot h
  refine ⟨slot', hslot', fun hrenames => ?_, fun hwrites _ => ?_⟩
  · rcases hrevised.name with hname | ⟨name, rfl⟩
    · exact hname
    · exact absurd rfl (of_decide_eq_false hrenames)
  · rcases hrevised.value with hvalue | ⟨value, rfl⟩ | ⟨p, rfl⟩ | rfl | rfl
    · exact hvalue
    · exact absurd rfl (of_decide_eq_false hwrites)
    · cases hwrites
    · cases hwrites
    · cases hwrites

/-- **What an action does to a slot**: it stays, and so do its name and its value unless they are written. -/
theorem act_slot (hs : m.system.WellFormed) (a : Action α σ) (h : m.system.slot? v = some slot) :
    SlotAfter v slot a (m.act a).system := by
  have heffect := m.act_effect a
  generalize (m.act a).system = t at heffect ⊢
  cases heffect with
  | quiet he =>
    obtain ⟨t, ht, hrevised⟩ := m.apply_revised he
    rw [ht]
    exact slotAfter_of_revised hrevised h
  | added hi => exact slotAfter_of_sameFaces (System.insert_spec hi).1 h
  | removed hi => exact slotAfter_of_sameFaces (System.erase_spec hi).1 h
  | switched ha id b => exact slotAfter_of_slot? ((System.slot?_modify id _ v).trans h)
  | solved =>
    obtain ⟨slot', hslot', hname⟩ := (solve_sameOutline (m := m) hs).slot? h
    exact ⟨slot', hslot', fun _ => hname, fun _ hsolve => by cases hsolve⟩
  | kept ha => exact slotAfter_of_slot? h

/-! ## Notes along a run -/

theorem act_detached (hs : m.system.WellFormed ∧ m.system.Linked) {a : Action α σ} (ha : a.attaches v = false)
    (h : m.system.activeOf v = []) : (m.act a).system.activeOf v = [] := by
  have heffect := m.act_effect a
  generalize (m.act a).system = t at heffect ⊢
  cases heffect with
  | quiet he => exact ((m.apply_quiet_sameTerms he).1.active v).trans h
  | added hi => exact System.activeOf_insert_of_not_mem hs.2 hi h (of_decide_eq_false ha)
  | removed hi =>
    refine System.activeOf_erase hs hi fun other hother => ?_
    rw [h] at hother
    cases hother
  | switched _ id b =>
    have hterms := m.system.modify_sameTerms id (f := fun c => { c with enabled := b }) fun _ => rfl
    exact (hterms.active v).trans h
  | solved => exact ((solve_sameOutline hs.1).sameTerms.active v).trans h
  | kept _ => exact h

theorem perform_linked (hs : m.system.WellFormed ∧ m.system.Linked) (actions : List (Action α σ)) :
    (m.perform actions).system.WellFormed ∧ (m.perform actions).system.Linked :=
  perform_induction (P := fun m => m.system.WellFormed ∧ m.system.Linked) (fun m a h => m.act_linked a h.1 h.2) hs
    actions

theorem perform_detached (hs : m.system.WellFormed ∧ m.system.Linked) {actions : List (Action α σ)}
    (hactions : ∀ a ∈ actions, a.attaches v = false) (h : m.system.activeOf v = []) :
    (m.perform actions).system.activeOf v = [] := by
  unfold perform
  induction actions generalizing m with
  | nil => exact h
  | cons a actions ih =>
    obtain ⟨ha, hactions⟩ := List.forall_mem_cons.mp hactions
    exact ih (m.act_linked a hs.1 hs.2) hactions (act_detached hs ha h)

omit [Solver.Lawful α σ] in
theorem erase_ok {id : ConstraintId} (h : (m.system.constraint? id).isSome = true) :
    ∃ c, m.erase id = .ok (m.act (.edit (.remove id)), c) := by
  obtain ⟨c, hc⟩ := Option.isSome_iff_exists.mp h
  refine ⟨c, ?_⟩
  simp [act, apply, Model.erase, System.erase, System.require, hc, bind, Except.bind, pure, Except.pure, Except.map, after]

omit [Scalar α] [Solver.Lawful α σ] in
theorem system_erase {m' : Model α σ} {id : ConstraintId} {c : Constraint α} (h : m.erase id = .ok (m', c)) :
    m.system.erase id = .ok (m'.system, c) := by
  unfold Model.erase at h
  cases he : m.system.erase id with
  | error e => simp [he, bind, Except.bind] at h
  | ok x =>
    simp only [he, bind, Except.bind, pure, Except.pure, Except.ok.injEq, Prod.mk.injEq] at h
    obtain ⟨rfl, rfl⟩ := h
    rfl

omit [Solver.Lawful α σ] in
theorem system_insert {m' : Model α σ} {id : ConstraintId} {c : Constraint α} (h : m.insert c = .ok (m', id)) :
    m.system.insert c = .ok (m'.system, id) := by
  unfold Model.insert at h
  cases hi : m.system.insert c with
  | error e => simp [hi, bind, Except.bind] at h
  | ok x =>
    simp only [hi, bind, Except.bind, pure, Except.pure, Except.ok.injEq, Prod.mk.injEq] at h
    obtain ⟨rfl, rfl⟩ := h
    rfl

end Model

/-! ## Values along a run -/

namespace Model

variable {α γ : Type} [Scalar α] [Generator γ] {m : Model α (AnySolver (Engine α γ))} {v : Variable} {slot : Slot α}

/-- Whether the next solve works on a constraint that names a variable. -/
def engages (m : Model α (AnySolver (Engine α γ))) (v : Variable) : Bool :=
  m.solver.any fun x => (x.lift m.system).enabledConstraints.any fun c => decide (v ∈ c.terms.map (·.var))

/-- Whether no solve along a run works on a constraint that names a variable. -/
def spares (v : Variable) (m : Model α (AnySolver (Engine α γ))) : List (Action α (AnySolver (Engine α γ))) → Bool
  | [] => true
  | a :: actions => !(a.isSolve && m.engages v) && (m.act a).spares v actions

/-- Whether an action seeds the values, and if it does, whether with reset. -/
def seeding? (m : Model α (AnySolver (Engine α γ))) (a : Action α (AnySolver (Engine α γ))) : Option Bool :=
  if a.isSolve then m.solver.map (·.reset) else none

/-- The seedings along a run. -/
def seedings (m : Model α (AnySolver (Engine α γ))) : List (Action α (AnySolver (Engine α γ))) → List Bool
  | [] => []
  | a :: actions => (m.seeding? a).toList ++ (m.act a).seedings actions

variable [Scalar.NullWeight α]

/-- A solve that does not work on a variable seeds its value at most. -/
theorem solve_value (hs : m.system.WellFormed) (hengages : m.engages v = false) {slot' : Slot α}
    (h : m.system.slot? v = some slot) (h' : m.solve.1.system.slot? v = some slot') :
    slot'.value = (m.solver.map (·.reset)).toList.foldl (fun a reset => Scalar.seeded reset a) slot.value := by
  cases hx : m.solver with
  | none =>
    have hsystem : m.solve.1.system = m.system := by
      unfold Model.solve
      rw [hx]
    rw [hsystem, h, Option.some.injEq] at h'
    rw [← h']
    rfl
  | some x =>
    have hvalue : m.system.value? v = some slot.value := by rw [System.value?, h, Option.map_some]
    have hfree : ∀ c ∈ (x.lift m.system).enabledConstraints, v ∉ c.terms.map (·.var) := by
      simpa [engages, hx] using hengages
    have hsolved := x.value?_solve hs hvalue hfree
    rw [solve_of_solver hx] at h'
    rw [System.value?, h', Option.map_some, Option.some.injEq] at hsolved
    exact hsolved

/-- **What a run does to a slot**: it stays; its name stays unless the caller renames the variable, and its value is seeded
at most unless the caller writes it or a solve works on it. -/
theorem perform_slot (hs : m.system.WellFormed ∧ m.system.Linked) (h : m.system.slot? v = some slot)
    (actions : List (Action α (AnySolver (Engine α γ)))) :
    ∃ slot', (m.perform actions).system.slot? v = some slot' ∧
      ((∀ a ∈ actions, a.renames v = false) → slot'.name = slot.name) ∧
      ((∀ a ∈ actions, a.writes v = false) → m.spares v actions = true →
        slot'.value = (m.seedings actions).foldl (fun a reset => Scalar.seeded reset a) slot.value) := by
  unfold perform
  induction actions generalizing m slot with
  | nil => exact ⟨slot, h, fun _ => rfl, fun _ _ => rfl⟩
  | cons a actions ih =>
    obtain ⟨slot₁, hslot₁, hname₁, hvalue₁⟩ := act_slot hs.1 a h
    obtain ⟨slot', hslot', hname, hvalue⟩ := ih (m.act_linked a hs.1 hs.2) hslot₁
    refine ⟨slot', hslot', ?_, ?_⟩
    · intro hall
      obtain ⟨ha, hactions⟩ := List.forall_mem_cons.mp hall
      exact (hname hactions).trans (hname₁ ha)
    · intro hall hspares
      obtain ⟨ha, hactions⟩ := List.forall_mem_cons.mp hall
      simp only [spares, Bool.and_eq_true, Bool.not_eq_true', Bool.and_eq_false_iff] at hspares
      -- a solve seeds the value of a variable that it does not work on; no other action does
      have hstep : slot₁.value = (m.seeding? a).toList.foldl (fun a reset => Scalar.seeded reset a) slot.value := by
        cases hsolve : a.isSolve with
        | false => simpa [seeding?, hsolve] using hvalue₁ ha hsolve
        | true =>
          rw [Action.eq_solve hsolve] at hslot₁
          have hengages : m.engages v = false := by simpa [hsolve] using hspares.1
          simpa [seeding?, hsolve] using solve_value hs.1 hengages h hslot₁
      rw [hvalue hactions hspares.2, hstep, seedings, List.foldl_append]

omit [Scalar.NullWeight α] in
/-- An identifier is spent once its constraint is removed, and the removal leaves the faces of the variables alone. -/
theorem erase_cases (hs : m.system.WellFormed ∧ m.system.Linked) {id : ConstraintId} {c : Constraint α}
    {gone : Model α (AnySolver (Engine α γ))} (h : m.erase id = .ok (gone, c)) :
    (gone.system.WellFormed ∧ gone.system.Linked) ∧ gone.system.Spent id ∧ m.system.SameFaces gone.system ∧
      ∀ v, m.system.activeOf v = [id] → gone.system.activeOf v = [] := by
  have hsystem := system_erase h
  have herased := System.erased_of_erase hsystem
  obtain ⟨hfaces, hsize⟩ := System.erase_spec hsystem
  have hlt : id.index < m.system.constraints.size :=
    System.lt_of_constraint? (by rw [System.constraint?_of_erase hsystem]; rfl)
  refine ⟨⟨hs.1.erased herased, System.linked_erase hs.1 hs.2 hsystem⟩, ⟨by omega, ?_⟩, hfaces, ?_⟩
  · rw [herased.constraint, if_pos rfl]
  · intro v hv
    refine System.activeOf_erase hs hsystem fun other hother => ?_
    rw [hv] at hother
    exact List.mem_singleton.mp hother

/-- **Stale handles name nothing.**  Along any run, no identifier is returned twice.  Once a constraint has been removed, and
whatever is done later, its identifier is unknown in every call.  A variable that only this constraint named keeps its slot;
it keeps its name until the caller gives it another one, and its value until the caller writes it or a solve works on a
constraint that names it, but for the seedings of the solves in between.  It stays detached until a constraint is added that
names it, and is attached by that one. -/
theorem handles_never_alias [Scalar.Ordered α] (i : Nat) (x : Option (AnySolver (Engine α γ)))
    (before : List (Action α (AnySolver (Engine α γ)))) :
    let start := Model.new i x
    let m := start.perform before
    (start.issued before).Nodup ∧
    ∀ id gone c, m.erase id = .ok (gone, c) → ∀ later,
      let now := gone.perform later
      now.Unknown id ∧
      ∀ v slot, m.system.slot? v = some slot → slot.active = [id] →
        ∃ slot', now.system.slot? v = some slot' ∧
          ((∀ a ∈ later, a.renames v = false) → slot'.name = slot.name) ∧
          ((∀ a ∈ later, a.writes v = false) → gone.spares v later = true →
            slot'.value = (gone.seedings later).foldl (fun a reset => Scalar.seeded reset a) slot.value) ∧
          ((∀ a ∈ later, a.attaches v = false) → now.system.isAttached? v = some false ∧
            ∀ added next new, now.insert added = .ok (next, new) → v ∈ added.terms.map (·.var) →
              next.system.isAttached? v = some true ∧ next.system.activeOf v = [new]) := by
  intro start m
  have hs : m.system.WellFormed ∧ m.system.Linked := perform_sound i x before
  refine ⟨?_, ?_⟩
  · have hascending := (issued_ascending (m := start) ⟨System.empty_wellFormed i, System.empty_linked i⟩ before).1
    exact hascending.imp fun hlt he => absurd hlt (by rw [he]; exact Nat.lt_irrefl _)
  intro id gone c herase later now
  -- four facts hold right after the removal, and each is kept by what is done later
  obtain ⟨hgone, hspent, hfaces, hdetached⟩ := erase_cases hs herase
  have hnow : now.system.WellFormed ∧ now.system.Linked := perform_linked hgone later
  refine ⟨unknown_of_none (perform_spent hgone hspent later).2, ?_⟩
  intro v slot hslot hactive
  obtain ⟨slot₁, hslot₁, hname₁, hvalue₁⟩ := hfaces.slot? hslot
  obtain ⟨slot', hslot', hname, hvalue⟩ := perform_slot hgone hslot₁ later
  refine ⟨slot', hslot', ?_, ?_, ?_⟩
  · exact fun hlater => (hname hlater).trans hname₁
  · exact fun hlater hspares => hvalue₁ ▸ hvalue hlater hspares
  · intro hlater
    have hfree : now.system.activeOf v = [] :=
      perform_detached hgone hlater (hdetached v (by rw [System.activeOf_of_slot? hslot, hactive]))
    refine ⟨by rw [System.isAttached?_eq hslot', hfree]; rfl, ?_⟩
    intro added next new hinsert hnamed
    have hsystem := system_insert hinsert
    obtain ⟨slot₂, hslot₂, -⟩ := (System.insert_spec hsystem).1.slot? hslot'
    have hattached := System.activeOf_insert hnow.2 hsystem hfree hnamed
    exact ⟨by rw [System.isAttached?_eq hslot₂, hattached]; rfl, hattached⟩

/-- Over binary64, the only constraint on a variable is removed after a solve; others are added, solved and removed later.
The variable keeps its value and its name, a silent flag cannot bring the constraint back, and the next constraint on the
variable attaches it again. -/
theorem handles_never_alias_of_removal :
    let equals (j : Nat) (a : Float) : Draft Float := ⟨[⟨1, ⟨0, j⟩⟩], .eq, .fixed a, 1, true, none, none⟩
    let x : AnySolver (Engine Float KeyStream) := .direct (.new (.kaczmarz ⟨2, 1, 1, []⟩) false)
    let before : List (Action Float (AnySolver (Engine Float KeyStream))) :=
      [.edit (.addVariable (some "w")), .edit (.addVariable none), .edit (.add (equals 0 7)), .edit (.add (equals 1 3)),
        .install x, .edit .solve]
    let later : List (Action Float (AnySolver (Engine Float KeyStream))) :=
      [.edit (.add (equals 1 5)), .flag ⟨0⟩ true, .edit .solve, .edit (.remove ⟨1⟩), .edit .solve]
    let m := (Model.new 0 none).perform before
    let now := (m.act (.edit (.remove ⟨0⟩))).perform later
    (Model.issued (Model.new 0 none) (before ++ .edit (.remove ⟨0⟩) :: later)) = [⟨0⟩, ⟨1⟩, ⟨2⟩] ∧
      now.Unknown ⟨0⟩ ∧ now.system.value? ⟨0, 0⟩ = some 7 ∧ now.system.label? ⟨0, 0⟩ = some "w" ∧
      now.system.isAttached? ⟨0, 0⟩ = some false ∧
      (now.apply (.add (equals 0 8))).system.isAttached? ⟨0, 0⟩ = some true := by
  intro equals x before later m now
  have hlive : (m.system.constraint? ⟨0⟩).isSome = true := by decide +kernel
  obtain ⟨c, hc⟩ := erase_ok hlive
  obtain ⟨-, h⟩ := handles_never_alias (α := Float) (γ := KeyStream) 0 none before
  obtain ⟨hunknown, hslots⟩ := h ⟨0⟩ _ c hc later
  have hface : (m.system.slot? ⟨0, 0⟩).map (fun slot => (slot.name, slot.value, slot.active)) =
      some (some "w", 7, [⟨0⟩]) := by decide +kernel
  obtain ⟨slot, hslot, hface⟩ := Option.map_eq_some_iff.mp hface
  simp only [Prod.mk.injEq] at hface
  obtain ⟨slot', hslot', hname, hvalue, hattached⟩ := hslots ⟨0, 0⟩ slot hslot hface.2.2
  replace hslot' : now.system.slot? ⟨0, 0⟩ = some slot' := hslot'
  obtain ⟨hdetached, hnext⟩ := hattached (by decide +kernel)
  have hkept : slot'.value = 7 := by
    have hwritten : ∀ a ∈ later, a.writes ⟨0, 0⟩ = false := by decide +kernel
    have hspared : (m.act (.edit (.remove ⟨0⟩))).spares ⟨0, 0⟩ later = true := by decide +kernel
    have hseeded : ((m.act (.edit (.remove ⟨0⟩))).seedings later).foldl
        (fun a reset => Scalar.seeded reset a) (7 : Float) = 7 := by decide +kernel
    rw [← hface.2.1] at hseeded
    exact (hvalue hwritten hspared).trans (hseeded.trans hface.2.1)
  refine ⟨by decide +kernel, hunknown, ?_, ?_, hdetached, ?_⟩
  · rw [System.value?, hslot', Option.map_some, hkept]
  · have hlabel : slot'.name = some "w" := (hname (by decide +kernel)).trans hface.1
    rw [System.label?, hslot', Option.map_some, hlabel]
    rfl
  · have hok : (now.insert (equals 0 8).constraint).toOption.isSome = true := by decide +kernel
    rcases now.apply_add (equals 0 8) with ⟨e, he, -⟩ | ⟨t, id, hid, -⟩
    · rw [he] at hok
      cases hok
    · exact (hnext _ _ _ hid (by decide +kernel)).1

end Model

end SoftLinear
