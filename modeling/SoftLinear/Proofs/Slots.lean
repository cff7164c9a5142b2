import SoftLinear.Proofs.Arena

/-!
# Slots and places

The slot of a variable says how the variable is called, what its value is and which constraints name it; the place of a
constraint holds it, or nothing once it is removed.  Constraints that come and go write in the slots only which of them
name the variable (`System.SameFaces`).  A variable that a removed constraint alone named is detached by the removal
(`System.activeOf_erase`), and attached again by the next constraint that names it (`System.activeOf_insert`).
-/

namespace SoftLinear

/-- What a slot says about its variable apart from the constraints that name it. -/
def Slot.face {α : Type} (slot : Slot α) : Option String × α := (slot.name, slot.value)

namespace System

variable {α : Type} {s t : System α} {v w : Variable} {slot : Slot α}

/-- Two systems that agree in the names and values of their variables. -/
structure SameFaces (s t : System α) : Prop where
  id : t.id = s.id
  slots : ∀ j : Nat, t.slots[j]?.map Slot.face = s.slots[j]?.map Slot.face

namespace SameFaces

theorem slot? (h : SameFaces s t) (hv : s.slot? v = some slot) :
    ∃ slot', t.slot? v = some slot' ∧ slot'.name = slot.name ∧ slot'.value = slot.value := by
  obtain ⟨slot', hslot', hface⟩ := exists_slot?_of_part h.id h.slots hv
  exact ⟨slot', hslot', congrArg Prod.fst hface, congrArg Prod.snd hface⟩

theorem foldl {β : Type} {f : System α → β → System α} (hf : ∀ s x, SameFaces s (f s x)) (l : List β) (s : System α) :
    SameFaces s (l.foldl f s) := by
  induction l generalizing s with
  | nil => exact ⟨rfl, fun _ => rfl⟩
  | cons x l ih =>
    have h := hf s x
    have k := ih (f s x)
    exact ⟨k.id.trans h.id, fun j => (k.slots j).trans (h.slots j)⟩

theorem setActive {i : Nat} (hslot : s.slots[i]? = some slot) (active : List ConstraintId) (attached : List Variable) :
    SameFaces s { s with slots := s.slots.setIfInBounds i { slot with active := active }, attached := attached } where
  id := rfl
  slots j := by
    by_cases hj : i = j
    · subst hj
      have hlt : i < s.slots.size := (Array.getElem?_eq_some_iff.mp hslot).1
      rw [Array.getElem?_setIfInBounds_self_of_lt hlt, hslot]
      rfl
    · rw [Array.getElem?_setIfInBounds_ne hj]

theorem attach (id : ConstraintId) (s : System α) (x : Term α) : SameFaces s (s.attach id x.var) := by
  unfold System.attach
  split
  · rename_i hslot
    exact setActive hslot _ _
  · exact ⟨rfl, fun _ => rfl⟩

theorem detach (id : ConstraintId) (s : System α) (x : Term α) : SameFaces s (s.detach id x.var) := by
  unfold System.detach
  split
  · rename_i hslot
    exact setActive hslot _ _
  · exact ⟨rfl, fun _ => rfl⟩

end SameFaces

variable {c : Constraint α} {id : ConstraintId}

theorem insert_spec [Scalar α] (h : s.insert c = .ok (t, id)) :
    SameFaces s t ∧ t.constraints.size = s.constraints.size + 1 := by
  unfold insert at h
  split at h
  · cases h
  · split at h
    · simp only [Except.ok.injEq, Prod.mk.injEq] at h
      obtain ⟨rfl, rfl⟩ := h
      have hfaces := SameFaces.foldl (SameFaces.attach ⟨s.constraints.size⟩) c.terms s
      have hplaces := foldl_samePlaces (attach_samePlaces ⟨s.constraints.size⟩) c.terms s
      refine ⟨⟨hfaces.id, hfaces.slots⟩, ?_⟩
      rw [Array.size_push, hplaces.constraints]
    · cases h

theorem erase_spec (h : s.erase id = .ok (t, c)) : SameFaces s t ∧ t.constraints.size = s.constraints.size := by
  have hc := constraint?_of_erase h
  unfold erase require at h
  rw [hc] at h
  simp only [bind, Except.bind, pure, Except.pure, Except.ok.injEq, Prod.mk.injEq, and_true] at h
  subst h
  have hfaces := SameFaces.foldl (SameFaces.detach id) c.terms
    { s with constraints := s.constraints.setIfInBounds id.index none, order := id.erase s.order }
  have hplaces := foldl_samePlaces (detach_samePlaces id) c.terms
    { s with constraints := s.constraints.setIfInBounds id.index none, order := id.erase s.order }
  refine ⟨⟨hfaces.id, hfaces.slots⟩, ?_⟩
  rw [hplaces.constraints, Array.size_setIfInBounds]

theorem size_modify (s : System α) (id : ConstraintId) (f : Constraint α → Constraint α) :
    (s.modify id f).constraints.size = s.constraints.size := by
  unfold modify
  split
  · simp
  · rfl

theorem constraint?_modify_of_none {other : ConstraintId} (h : s.constraint? other = none)
    (f : Constraint α → Constraint α) : (s.modify id f).constraint? other = none := by
  rw [constraint?_modify]
  split
  · rename_i he
    rw [← he, h]
    rfl
  · exact h

/-! ## Notes -/

theorem Linked.activeOf_eq_nil (h : s.Linked) (hnone : ∀ other, ¬ s.Names v other) : s.activeOf v = [] := by
  rw [List.eq_nil_iff_forall_not_mem]
  exact fun other hother => hnone other ((h.mem v other).mp hother)

theorem Linked.activeOf_eq_singleton (h : s.Linked) (hid : ∀ other, s.Names v other ↔ other = id) :
    s.activeOf v = [id] := by
  have hmem : ∀ other, other ∈ s.activeOf v ↔ other = id := fun other => (h.mem v other).trans (hid other)
  have hascending := h.ascending v
  generalize s.activeOf v = ids at hmem hascending
  cases ids with
  | nil => exact absurd ((hmem id).mpr rfl) List.not_mem_nil
  | cons a rest =>
    obtain rfl := (hmem a).mp List.mem_cons_self
    cases rest with
    | nil => rfl
    | cons b rest =>
      obtain rfl := (hmem b).mp (List.mem_cons_of_mem a List.mem_cons_self)
      exact absurd ((List.pairwise_cons.mp hascending).1 b List.mem_cons_self) (Nat.lt_irrefl _)

theorem activeOf_of_slot? (h : s.slot? v = some slot) : s.activeOf v = slot.active := by
  unfold activeOf
  rw [h]

theorem isAttached?_eq (h : s.slot? v = some slot) : s.isAttached? v = some (!(s.activeOf v).isEmpty) := by
  rw [activeOf_of_slot? h, isAttached?, h, Option.map_some]

theorem activeOf_erase [Scalar α] (hs : s.WellFormed ∧ s.Linked) (h : s.erase id = .ok (t, c))
    (hv : ∀ other ∈ s.activeOf v, other = id) : t.activeOf v = [] := by
  refine (linked_erase hs.1 hs.2 h).activeOf_eq_nil ?_
  rintro other ⟨d, hd, hnamed⟩
  rw [(erased_of_erase h).constraint] at hd
  split at hd
  · cases hd
  · rename_i hne
    exact hne (hv other ((hs.2.mem v other).mpr ⟨d, hd, hnamed⟩))

section Insert

variable [Scalar α] (hs : s.Linked) (h : s.insert c = .ok (t, id)) (hv : s.activeOf v = [])
include hs h hv

theorem names_of_insert (other : ConstraintId) : t.Names v other ↔ other = id ∧ v ∈ c.terms.map (·.var) := by
  have hold : ¬ s.Names v other := by
    rw [← hs.mem, hv]
    exact List.not_mem_nil
  unfold Names at hold ⊢
  rw [(inserted_of_insert h).constraint]
  by_cases ho : other = id
  · simp [ho]
  · simpa [ho] using hold

theorem activeOf_insert_of_not_mem (hc : v ∉ c.terms.map (·.var)) : t.activeOf v = [] := by
  refine (linked_insert hs h).activeOf_eq_nil fun other hother => ?_
  exact hc ((names_of_insert hs h hv other).mp hother).2

theorem activeOf_insert (hc : v ∈ c.terms.map (·.var)) : t.activeOf v = [id] := by
  refine (linked_insert hs h).activeOf_eq_singleton fun other => ?_
  rw [names_of_insert hs h hv]
  exact and_iff_left hc

end Insert

/-- A place that was handed out and is empty. -/
def Spent (s : System α) (id : ConstraintId) : Prop := id.index < s.constraints.size ∧ s.constraint? id = none

end System

end SoftLinear
