import SoftLinear.Proofs.Handles

/-!
# Removal undoes insertion

A constraint that is removed right after it was added leaves the system as it was, but for an identifier that is used up
(`System.skip`).  Each part of the system comes back for a reason of its own:

* which constraints are noted at a variable follows from what the constraints name (`System.Notes.activeOf_eq`), and a
  slot is its face and its notes (`System.SameFaces.slots_eq`);
* the attached variables are the same ones, and neither step changes their order: an insertion appends
  (`System.attached_insert`), a removal filters (`System.attached_erase`);
* the places are as many as they were and one more, with the same content (`System.constraints_eq`).
-/

namespace SoftLinear

theorem eq_of_sublist_of_mem {β : Type} [DecidableEq β] {part part' list : List β} (h : part.Sublist list)
    (h' : part'.Sublist list) (hn : list.Nodup) (hmem : ∀ x, x ∈ part ↔ x ∈ part') : part = part' := by
  calc part = list.filter (· ∈ part) := (filter_mem_of_sublist h hn).symm
    _ = list.filter (· ∈ part') := List.filter_congr fun x _ => decide_eq_decide.mpr (hmem x)
    _ = part' := filter_mem_of_sublist h' hn

namespace System

variable {α : Type} {s t u : System α} {R : Variable → ConstraintId → Prop} {c : Constraint α} {id : ConstraintId}

/-! ## What determines the parts of a system -/

/-- What is noted at a variable is determined by the relation that the notes stand for. -/
theorem Notes.activeOf_eq (hs : Notes s R) (ht : Notes t R) (v : Variable) : t.activeOf v = s.activeOf v :=
  ConstraintId.eq_of_ascending (ht.ascending v) (hs.ascending v) fun other =>
    (ht.mem v other).trans (hs.mem v other).symm

theorem SameFaces.trans (h : SameFaces s t) (k : SameFaces t u) : SameFaces s u :=
  ⟨k.id.trans h.id, fun j => (k.slots j).trans (h.slots j)⟩

theorem SameFaces.slots_eq (h : SameFaces s t) (hactive : ∀ v, t.activeOf v = s.activeOf v) : t.slots = s.slots := by
  refine Array.ext_getElem? fun j => ?_
  have hface := h.slots j
  have hnoted := hactive ⟨s.id, j⟩
  unfold activeOf at hnoted
  rw [slot?_eq, slot?_eq, if_pos rfl, if_pos h.id.symm] at hnoted
  dsimp only at hnoted
  cases hs : s.slots[j]? with
  | none =>
    rw [hs] at hface
    exact Option.map_eq_none_iff.mp hface
  | some slot =>
    rw [hs, Option.map_some, Option.map_eq_some_iff] at hface
    obtain ⟨slot', ht, hface⟩ := hface
    rw [hs, ht] at hnoted
    cases slot
    cases slot'
    simp_all [Slot.face]

theorem constraints_eq (hsize : t.constraints.size = s.constraints.size)
    (h : ∀ other, t.constraint? other = s.constraint? other) : t.constraints = s.constraints := by
  refine Array.ext hsize fun j hj hj' => ?_
  have hplace := h ⟨j⟩
  unfold constraint? at hplace
  simpa [hj, hj'] using hplace

/-! ## The order of the attached variables -/

theorem attached_attach (s : System α) (id : ConstraintId) (v : Variable) :
    s.attached.Sublist (s.attach id v).attached := by
  unfold attach
  split
  · dsimp only
    split
    · exact List.sublist_append_left _ _
    · exact List.Sublist.refl _
  · exact List.Sublist.refl _

theorem attached_detach (s : System α) (id : ConstraintId) (v : Variable) :
    (s.detach id v).attached.Sublist s.attached := by
  unfold detach
  split
  · dsimp only
    split
    · exact List.filter_sublist
    · exact List.Sublist.refl _
  · exact List.Sublist.refl _

theorem attached_foldl_attach (id : ConstraintId) (ts : List (Term α)) (s : System α) :
    s.attached.Sublist (ts.foldl (fun s x => s.attach id x.var) s).attached := by
  induction ts generalizing s with
  | nil => exact List.Sublist.refl _
  | cons x ts ih => exact (s.attached_attach id x.var).trans (ih _)

theorem attached_foldl_detach (id : ConstraintId) (ts : List (Term α)) (s : System α) :
    (ts.foldl (fun s x => s.detach id x.var) s).attached.Sublist s.attached := by
  induction ts generalizing s with
  | nil => exact List.Sublist.refl _
  | cons x ts ih => exact (ih _).trans (s.attached_detach id x.var)

theorem attached_insert [Scalar α] (h : s.insert c = .ok (t, id)) : s.attached.Sublist t.attached := by
  unfold insert at h
  split at h
  · cases h
  · split at h
    · simp only [Except.ok.injEq, Prod.mk.injEq] at h
      obtain ⟨rfl, rfl⟩ := h
      exact attached_foldl_attach _ c.terms s
    · cases h

theorem attached_erase (h : s.erase id = .ok (t, c)) : t.attached.Sublist s.attached := by
  have hc := constraint?_of_erase h
  unfold erase require at h
  rw [hc] at h
  simp only [bind, Except.bind, pure, Except.pure, Except.ok.injEq, Prod.mk.injEq, and_true] at h
  subst h
  exact attached_foldl_detach id c.terms _

/-! ## An identifier that is used up -/

/-- The system with one more empty place. -/
def skip (s : System α) : System α := { s with constraints := s.constraints.push none }

theorem constraint?_skip (s : System α) (other : ConstraintId) : s.skip.constraint? other = s.constraint? other := by
  unfold skip constraint?
  rw [Array.getElem?_push]
  split
  · rename_i hlast
    simp [hlast]
  · rfl

theorem live_skip (s : System α) (ids : List ConstraintId) : s.skip.live ids = s.live ids := by
  unfold live resolve
  simp only [constraint?_skip]

theorem enabledConstraints_skip (s : System α) : s.skip.enabledConstraints = s.enabledConstraints :=
  congrArg (List.map Prod.snd) (s.live_skip s.order)

variable [Scalar α]

theorem measures_skip (s : System α) : s.skip.maxError = s.maxError ∧ s.skip.hardError = s.hardError ∧
    s.skip.squaredError = s.squaredError ∧ s.skip.unsatisfied = s.unsatisfied := by
  unfold maxError hardError squaredError unsatisfied
  rw [enabledConstraints_skip, live_skip]
  exact ⟨rfl, rfl, rfl, rfl⟩

theorem insert_skip (s : System α) (c : Constraint α) :
    (s.skip.insert c).map (·.2) = ((s.insert c).map (·.2)).map fun id => ⟨id.index + 1⟩ := by
  have hforeign : s.skip.foreign? c = s.foreign? c := rfl
  unfold insert
  rw [hforeign]
  split
  · rfl
  · split
    · simp [Except.map, skip]
    · rfl

theorem exists_erase_of_insert (h : s.insert c = .ok (t, id)) : ∃ u, t.erase id = .ok (u, c) := by
  have hc : t.constraint? id = some c := by rw [(inserted_of_insert h).constraint, if_pos rfl]
  unfold erase require
  rw [hc]
  exact ⟨_, rfl⟩

section There

variable (h : s.insert c = .ok (t, id)) (hu : t.erase id = .ok (u, c))
include h hu

theorem constraint?_erase_insert (other : ConstraintId) : u.constraint? other = s.constraint? other := by
  have hinserted := inserted_of_insert h
  rw [(erased_of_erase hu).constraint, hinserted.constraint]
  split
  · rename_i ho
    rw [ho, hinserted.vacant]
  · rfl

/-- The notes are again those of the old constraints, because the identifier was not noted anywhere before. -/
theorem notes_erase_insert (hs : s.Linked) : Notes u s.Names := by
  have hinserted := inserted_of_insert h
  have howned : ∀ x ∈ c.terms, t.owns x.var = true := by
    intro x hx
    have hx := hinserted.owned x hx
    unfold owns at hx ⊢
    rwa [hinserted.owner, hinserted.size]
  refine (Notes.erase (Notes.insert hs h) howned hu).congr fun v other => ?_
  have hother : s.Names v other → other ≠ id := by
    rintro ⟨d, hd, -⟩ rfl
    rw [hinserted.vacant] at hd
    cases hd
  tauto

theorem order_erase_insert (hs : s.WellFormed) : u.order = s.order := by
  have hinserted := inserted_of_insert h
  have hnew : id ∉ s.order := by
    rw [hs.listed, hinserted.vacant]
    exact Bool.false_ne_true
  have hkept : id.erase s.order = s.order :=
    List.filter_eq_self.mpr fun other hother => decide_eq_true fun he => hnew (he ▸ hother)
  calc u.order = id.erase (s.order ++ [id]) := by rw [(erased_of_erase hu).order, hinserted.order]
    _ = id.erase s.order ++ id.erase [id] := List.filter_append _ _
    _ = id.erase s.order ++ [] := congrArg (id.erase s.order ++ ·) (List.filter_eq_nil_iff.mpr (by simp))
    _ = s.order := by rw [List.append_nil, hkept]

end There

/-- **Removal undoes insertion** up to the identifier that is used up. -/
theorem erase_insert (hs : s.WellFormed ∧ s.Linked) (h : s.insert c = .ok (t, id)) :
    t.erase id = .ok (s.skip, c) := by
  obtain ⟨u, hu⟩ := exists_erase_of_insert h
  have hinserted := inserted_of_insert h
  have herased := erased_of_erase hu
  have hnotes := notes_erase_insert h hu hs.2
  -- sorted notes with the same members are equal, and so are the lists that keep their order
  have hactive := hs.2.activeOf_eq hnotes
  have hslots : u.slots = s.slots := ((insert_spec h).1.trans (erase_spec hu).1).slots_eq hactive
  have hattached : u.attached = s.attached := by
    refine eq_of_sublist_of_mem (attached_erase hu) (attached_insert h) (Notes.insert hs.2 h).nodup fun v => ?_
    rw [hnotes.attached, hs.2.attached, hactive]
  have hconstraints : u.constraints = s.skip.constraints := by
    refine constraints_eq ?_ fun other => (constraint?_erase_insert h hu other).trans (s.constraint?_skip other).symm
    rw [(erase_spec hu).2, (insert_spec h).2]
    exact (Array.size_push _).symm
  rw [hu]
  refine congrArg (fun v => Except.ok (v, c)) ?_
  show (⟨u.id, u.slots, u.attached, u.constraints, u.order, u.tolerance⟩ : System α) = s.skip
  rw [hslots, hattached, hconstraints, order_erase_insert h hu hs.1, herased.owner, herased.tolerance, hinserted.owner,
    hinserted.tolerance]
  rfl

end System

namespace Model

section Steps

variable {α σ : Type} [Scalar α] [Solver α σ] {m added : Model α σ} {c : Constraint α} {id : ConstraintId}

theorem lastStatus_insert (h : m.insert c = .ok (added, id)) : added.lastStatus = m.lastStatus := by
  unfold Model.insert at h
  cases hi : m.system.insert c with
  | error e => simp [hi, bind, Except.bind] at h
  | ok r =>
    simp only [hi, bind, Except.bind, pure, Except.pure, Except.ok.injEq, Prod.mk.injEq] at h
    rw [← h.1]

omit [Scalar α] in
theorem erase_of_system {t : System α} (h : m.system.erase id = .ok (t, c)) :
    m.erase id = .ok (⟨t, m.solver.map fun solver => Solver.removed solver t id c, m.lastStatus⟩, c) := by
  simp [Model.erase, h, bind, Except.bind, pure, Except.pure]

theorem map_insert (m : Model α σ) (c : Constraint α) : (m.insert c).map (·.2) = (m.system.insert c).map (·.2) := by
  unfold Model.insert
  cases m.system.insert c <;> rfl

end Steps

variable {α γ : Type} [Scalar α] [Generator γ]

/-- **Removal undoes insertion.**  Whatever was done to a model before, and whichever constraint it accepts, removing
that constraint at once succeeds, returns it, and gives the system back with one more empty place.  So the same
constraints are listed in the same order, the same variables are attached in the same order, the same constraints are
noted at each variable; all values, names, constraints with their flags, the tolerance, the last status and the
measures of the violations are as before.  The next constraint meets the same answer as before and gets an identifier
larger by one. -/
theorem erase_undoes_insert [Scalar.Ordered α] (i : Nat) (x : Option (AnySolver (Engine α γ)))
    (actions : List (Action α (AnySolver (Engine α γ)))) :
    let m := (Model.new i x).perform actions
    ∀ c added id, m.insert c = .ok (added, id) → ∃ undone, added.erase id = .ok (undone, c) ∧
      let s := m.system
      let t := undone.system
      t = { s with constraints := s.constraints.push none } ∧
      t.order = s.order ∧ t.attached = s.attached ∧ (∀ v, t.activeOf v = s.activeOf v) ∧
      t.values = s.values ∧ (∀ v, t.value? v = s.value? v ∧ t.label? v = s.label? v) ∧
      (∀ other, t.constraint? other = s.constraint? other) ∧
      t.tolerance = s.tolerance ∧ undone.lastStatus = m.lastStatus ∧
      t.maxError = s.maxError ∧ t.hardError = s.hardError ∧ t.squaredError = s.squaredError ∧
      t.unsatisfied = s.unsatisfied ∧
      ∀ d, (undone.insert d).map (·.2) = ((m.insert d).map (·.2)).map fun next => ⟨next.index + 1⟩ := by
  intro m c added id h
  have hundone := System.erase_insert (perform_sound i x actions) (system_insert h)
  obtain ⟨hmax, hhard, hsquared, hunsatisfied⟩ := m.system.measures_skip
  refine ⟨_, erase_of_system hundone, rfl, rfl, rfl, fun _ => rfl, rfl, fun _ => ⟨rfl, rfl⟩, m.system.constraint?_skip,
    rfl, (lastStatus_insert h :), hmax, hhard, hsquared, hunsatisfied, fun d => ?_⟩
  rw [map_insert, map_insert]
  exact m.system.insert_skip d

/-- Over binary64, after a removal and a solve: the new constraint names a variable that is attached, one that was
attached once, one that never was, and one of them twice. -/
theorem erase_undoes_insert_of_mixed :
    let term (j : Nat) : Term Float := ⟨1, ⟨0, j⟩⟩
    let draft (terms : List (Term Float)) : Draft Float := ⟨terms, .eq, .fixed 4, 1, true, none, none⟩
    let x : AnySolver (Engine Float KeyStream) := .direct (.new (.kaczmarz ⟨2, 1, 1, []⟩) false)
    let m := (Model.new 0 (some x)).perform
      [.edit (.addVariable none), .edit (.addVariable none), .edit (.addVariable none), .edit (.addVariable (some "w")),
        .edit (.add (draft [term 1, term 2])), .edit (.add (draft [term 0, term 1])), .edit (.remove ⟨0⟩), .edit .solve]
    let c : Constraint Float := ⟨[term 2, term 0, term 3, term 2], .ge, .fixed 9, 0.5, true, none, none⟩
    m.system.attached = [⟨0, 1⟩, ⟨0, 0⟩] ∧
      ∃ added undone, m.insert c = .ok (added, ⟨2⟩) ∧
        added.system.attached = [⟨0, 1⟩, ⟨0, 0⟩, ⟨0, 2⟩, ⟨0, 3⟩] ∧
        added.erase ⟨2⟩ = .ok (undone, c) ∧ undone.system.attached = [⟨0, 1⟩, ⟨0, 0⟩] ∧
        undone.system.order = [⟨1⟩] ∧ undone.system.activeOf ⟨0, 0⟩ = [⟨1⟩] ∧ undone.system.activeOf ⟨0, 2⟩ = [] ∧
        (undone.insert c).map (·.2) = .ok ⟨3⟩ := by
  intro term draft x m c
  have hfound : (m.insert c).toOption.map (fun r => (r.2, r.1.system.attached)) =
      some (⟨2⟩, [⟨0, 1⟩, ⟨0, 0⟩, ⟨0, 2⟩, ⟨0, 3⟩]) := by decide +kernel
  have hattached : m.system.attached = [⟨0, 1⟩, ⟨0, 0⟩] := by decide +kernel
  obtain ⟨added, id, hinsert⟩ : ∃ added id, m.insert c = .ok (added, id) := by
    cases h : m.insert c with
    | error e => simp [h, Except.toOption] at hfound
    | ok r => exact ⟨r.1, r.2, rfl⟩
  simp only [hinsert, Except.toOption, Option.map_some, Option.some.injEq, Prod.mk.injEq] at hfound
  obtain ⟨rfl, hadded⟩ := hfound
  obtain ⟨undone, herase, -, horder, hagain, hactive, -, -, -, -, -, -, -, -, -, hnext⟩ :=
    erase_undoes_insert (α := Float) (γ := KeyStream) 0 (some x) _ c added ⟨2⟩ hinsert
  refine ⟨hattached, added, undone, hinsert, hadded, herase, hagain.trans hattached, horder.trans ?_,
    (hactive _).trans ?_, (hactive _).trans ?_, ?_⟩
  · decide +kernel
  · decide +kernel
  · decide +kernel
  · refine (hnext c).trans ?_
    rw [show Model.insert _ c = _ from hinsert]
    rfl

end Model

end SoftLinear
