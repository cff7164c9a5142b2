import Mathlib.Data.List.Nodup
import SoftLinear.Proofs.Outline
import SoftLinear.Proofs.ScalarOrder

/-!
# Well-formed systems

What the edits of a system keep up: the constraints are listed in ascending order and each place that is not empty is
listed, a constraint names each variable once and only variables of its system, its penalty is in range, and the
tolerance is positive.

A solve changes values, pivots and flags only, so it cannot spoil this (`SameOutline.wellFormed`).  The edits that add,
remove or switch a constraint have one lemma each here.
-/

namespace SoftLinear

variable {α : Type} [Scalar α]

/-- What a system asks of its constraints. -/
structure Constraint.Fits (s : System α) (c : Constraint α) : Prop where
  distinct : (c.terms.map (·.var)).Nodup
  owned : ∀ t ∈ c.terms, s.owns t.var = true
  penalty : isPenalty c.penalty = true

/-- The invariant of the edits of a system. -/
structure System.WellFormed (s : System α) : Prop where
  sorted : s.order.Pairwise (·.index < ·.index)
  listed : ∀ id, id ∈ s.order ↔ (s.constraint? id).isSome = true
  fits : ∀ {id c}, s.constraint? id = some c → c.Fits s
  tolerance : 0 < s.tolerance

/-! ## Merging terms -/

namespace Term

theorem vars_absorb (t : Term α) (ts : List (Term α)) :
    (t.absorb ts).map (·.var) =
      if t.var ∈ ts.map (·.var) then ts.map (·.var) else ts.map (·.var) ++ [t.var] := by
  induction ts with
  | nil => rfl
  | cons s ts ih =>
    unfold absorb
    by_cases h : s.var = t.var
    · simp [h]
    · have h' : ¬ t.var = s.var := fun e => h e.symm
      rw [if_neg h, List.map_cons, List.map_cons, ih]
      by_cases hm : t.var ∈ ts.map (·.var)
      · rw [if_pos hm, if_pos (List.mem_cons_of_mem _ hm)]
      · rw [if_neg hm, if_neg (by simp only [List.mem_cons, not_or]; exact ⟨h', hm⟩), List.cons_append]

theorem nodup_merge (ts : List (Term α)) : ((merge ts).map (·.var)).Nodup := by
  have key : ∀ acc : List (Term α), (acc.map (·.var)).Nodup →
      ((ts.foldl (fun acc t => t.absorb acc) acc).map (·.var)).Nodup := by
    induction ts with
    | nil => exact fun acc h => h
    | cons t ts ih =>
      intro acc h
      apply ih
      rw [vars_absorb]
      split
      · exact h
      · rename_i hm
        exact List.Nodup.append h (List.nodup_singleton _) (List.disjoint_singleton.mpr hm)
  exact key [] List.nodup_nil

end Term

namespace Constraint

theorem Fits.mono {s t : System α} {c : Constraint α} (h : c.Fits s) (hid : t.id = s.id)
    (hsize : s.slots.size ≤ t.slots.size) : c.Fits t where
  distinct := h.distinct
  owned x hx := by
    have := h.owned x hx
    simp only [System.owns, Bool.and_eq_true, decide_eq_true_eq] at this ⊢
    exact ⟨this.1.trans hid.symm, by omega⟩
  penalty := h.penalty

theorem Fits.of_bare {s : System α} {c d : Constraint α} (h : c.Fits s) (e : d.bare = c.bare) : d.Fits s := by
  have ht : d.terms = c.terms := (congrArg Constraint.terms e :)
  have hp : d.penalty = c.penalty := (congrArg Constraint.penalty e :)
  exact ⟨ht ▸ h.distinct, ht ▸ h.owned, hp ▸ h.penalty⟩

end Constraint

namespace System

variable {s t : System α}

/-! ## Solves -/

/-- What leaves the outline of a system as it is keeps the system well-formed. -/
theorem SameOutline.wellFormed (h : SameOutline s t) (hs : s.WellFormed) : t.WellFormed where
  sorted := h.order ▸ hs.sorted
  listed id := by rw [h.order, h.isSome_constraint?]; exact hs.listed id
  fits {id c} hc := by
    obtain ⟨d, hd, e⟩ := h.exists_constraint? hc
    exact ((hs.fits hd).of_bare e).mono h.id (le_of_eq h.slots_size.symm)
  tolerance := h.tolerance ▸ hs.tolerance

/-! ## Edits -/

theorem empty_wellFormed [Scalar.Ordered α] (i : Nat) : (empty i : System α).WellFormed where
  sorted := List.Pairwise.nil
  listed id := by simp [empty, constraint?]
  fits {id c} hc := by simp [empty, constraint?] at hc
  tolerance := Scalar.Ordered.small_pos

theorem WellFormed.modify (hs : s.WellFormed) (id : ConstraintId) {f : Constraint α → Constraint α}
    (hf : ∀ c, c.Fits s → (f c).Fits s) : (s.modify id f).WellFormed := by
  have hid : (s.modify id f).id = s.id := by unfold System.modify; split <;> rfl
  have horder : (s.modify id f).order = s.order := by unfold System.modify; split <;> rfl
  have htol : (s.modify id f).tolerance = s.tolerance := by unfold System.modify; split <;> rfl
  refine ⟨horder ▸ hs.sorted, ?_, ?_, htol ▸ hs.tolerance⟩
  · intro other
    rw [horder, constraint?_modify, hs.listed]
    split
    · rename_i h; subst h; simp
    · rfl
  · intro other c hc
    refine Constraint.Fits.mono (s := s) ?_ hid (by rw [modify_slots])
    rw [constraint?_modify] at hc
    split at hc
    · obtain ⟨d, hd, rfl⟩ := Option.map_eq_some_iff.mp hc
      exact hf d (hs.fits hd)
    · exact hs.fits hc

/-- Two systems that differ at most in what the slots hold and in the attached variables. -/
structure SamePlaces (s t : System α) : Prop where
  id : t.id = s.id
  constraints : t.constraints = s.constraints
  order : t.order = s.order
  tolerance : t.tolerance = s.tolerance
  size : t.slots.size = s.slots.size

omit [Scalar α] in
theorem foldl_samePlaces {β : Type} {f : System α → β → System α} (hf : ∀ s x, SamePlaces s (f s x)) (l : List β)
    (s : System α) : SamePlaces s (l.foldl f s) := by
  induction l generalizing s with
  | nil => exact ⟨rfl, rfl, rfl, rfl, rfl⟩
  | cons x l ih =>
    have h := hf s x
    have k := ih (f s x)
    exact ⟨k.id.trans h.id, k.constraints.trans h.constraints, k.order.trans h.order, k.tolerance.trans h.tolerance,
      k.size.trans h.size⟩

omit [Scalar α] in
theorem attach_samePlaces (id : ConstraintId) (s : System α) (x : Term α) : SamePlaces s (s.attach id x.var) := by
  unfold attach
  split
  · exact ⟨rfl, rfl, rfl, rfl, by simp⟩
  · exact ⟨rfl, rfl, rfl, rfl, rfl⟩

omit [Scalar α] in
theorem detach_samePlaces (id : ConstraintId) (s : System α) (x : Term α) : SamePlaces s (s.detach id x.var) := by
  unfold detach
  split
  · exact ⟨rfl, rfl, rfl, rfl, by simp⟩
  · exact ⟨rfl, rfl, rfl, rfl, rfl⟩

/-- What a successful insertion does to the list of constraints. -/
structure Inserted (s : System α) (c : Constraint α) (t : System α) (id : ConstraintId) : Prop where
  id_eq : id = ⟨s.constraints.size⟩
  owner : t.id = s.id
  tolerance : t.tolerance = s.tolerance
  size : t.slots.size = s.slots.size
  order : t.order = s.order ++ [id]
  owned : ∀ x ∈ c.terms, s.owns x.var = true
  penalty : isPenalty c.penalty = true
  constraint : ∀ other, t.constraint? other = if other = id then some c else s.constraint? other

theorem inserted_of_insert {c : Constraint α} {id : ConstraintId} (h : s.insert c = .ok (t, id)) :
    Inserted s c t id := by
  unfold insert at h
  split at h
  · cases h
  · rename_i hforeign
    split at h
    · rename_i hpenalty
      have hf := foldl_samePlaces (attach_samePlaces ⟨s.constraints.size⟩) c.terms s
      simp only [Except.ok.injEq, Prod.mk.injEq] at h
      obtain ⟨rfl, rfl⟩ := h
      refine ⟨rfl, hf.id, hf.tolerance, hf.size, by rw [hf.order], ?_, hpenalty, ?_⟩
      · intro x hx
        simp only [foreign?, List.find?_eq_none, List.mem_map] at hforeign
        simpa using hforeign x.var ⟨x, hx, rfl⟩
      · intro other
        simp only [constraint?, hf.constraints, Array.getElem?_push]
        by_cases ho : other.index = s.constraints.size
        · have : other = ⟨s.constraints.size⟩ := by cases other; simp_all
          simp [this]
        · have : ¬ other = ⟨s.constraints.size⟩ := fun e => ho (by rw [e])
          simp [ho, this]
    · cases h

/-- What a successful removal does to the list of constraints. -/
structure Erased (s t : System α) (id : ConstraintId) : Prop where
  owner : t.id = s.id
  tolerance : t.tolerance = s.tolerance
  size : t.slots.size = s.slots.size
  order : t.order = id.erase s.order
  constraint : ∀ other, t.constraint? other = if other = id then none else s.constraint? other

omit [Scalar α] in
theorem erased_of_erase {c : Constraint α} {id : ConstraintId} (h : s.erase id = .ok (t, c)) : Erased s t id := by
  unfold erase require at h
  split at h
  · rename_i d hd
    simp only [bind, Except.bind, pure, Except.pure, Except.ok.injEq, Prod.mk.injEq] at h
    obtain ⟨rfl, rfl⟩ := h
    have hf := foldl_samePlaces (detach_samePlaces id) d.terms
      { s with constraints := s.constraints.setIfInBounds id.index none, order := id.erase s.order }
    refine ⟨hf.id, hf.tolerance, hf.size, hf.order, ?_⟩
    intro other
    simp only [constraint?, hf.constraints, Array.getElem?_setIfInBounds]
    by_cases ho : id.index = other.index
    · have : other = id := by cases id; cases other; simp_all
      subst this
      simp only [if_true]
      split <;> rfl
    · have : ¬ other = id := fun e => ho (by rw [e])
      simp [ho, this]
  · cases h

omit [Scalar α] in
theorem lt_of_constraint? {id : ConstraintId} (h : (s.constraint? id).isSome = true) :
    id.index < s.constraints.size := by
  apply Nat.lt_of_not_le
  intro hle
  simp [constraint?, Array.getElem?_eq_none hle] at h

/-- No place is used twice: the identifier of a new constraint is beyond those of the earlier ones. -/
theorem Inserted.fresh {c : Constraint α} {id : ConstraintId} (h : Inserted s c t id) :
    ¬ id.index < s.constraints.size := by
  rw [h.id_eq]
  exact Nat.lt_irrefl _

theorem Inserted.vacant {c : Constraint α} {id : ConstraintId} (h : Inserted s c t id) : s.constraint? id = none := by
  rw [h.id_eq]
  simp [constraint?]

theorem WellFormed.inserted {c : Constraint α} {id : ConstraintId} (hs : s.WellFormed)
    (hdistinct : (c.terms.map (·.var)).Nodup) (h : Inserted s c t id) : t.WellFormed where
  sorted := by
    rw [h.order]
    refine List.pairwise_append.mpr ⟨hs.sorted, List.pairwise_singleton _ _, ?_⟩
    intro a ha b hb
    rw [List.mem_singleton.mp hb, h.id_eq]
    exact lt_of_constraint? ((hs.listed a).mp ha)
  listed other := by
    rw [h.order, h.constraint, List.mem_append, List.mem_singleton, hs.listed]
    by_cases ho : other = id
    · simp [ho]
    · simp [ho]
  fits {other d} hd := by
    refine Constraint.Fits.mono (s := s) ?_ h.owner (le_of_eq h.size.symm)
    rw [h.constraint] at hd
    split at hd
    · obtain rfl := Option.some.inj hd
      exact ⟨hdistinct, h.owned, h.penalty⟩
    · exact hs.fits hd
  tolerance := h.tolerance ▸ hs.tolerance

theorem WellFormed.erased {id : ConstraintId} (hs : s.WellFormed) (h : Erased s t id) : t.WellFormed where
  sorted := h.order ▸ hs.sorted.filter _
  listed other := by
    rw [h.order, h.constraint, ConstraintId.erase, List.mem_filter, hs.listed]
    by_cases ho : other = id
    · simp [ho]
    · simp [ho]
  fits {other d} hd := by
    refine Constraint.Fits.mono (s := s) ?_ h.owner (le_of_eq h.size.symm)
    rw [h.constraint] at hd
    split at hd
    · cases hd
    · exact hs.fits hd
  tolerance := h.tolerance ▸ hs.tolerance

omit [Scalar α] in
theorem constraint?_observe (s : System α) (source : Nat) (reading : α) (id : ConstraintId) :
    (s.observe source reading).constraint? id =
      (s.constraint? id).map fun c => { c with rightSide := c.rightSide.observe source reading } := by
  unfold constraint? observe
  rw [Array.getElem?_map]
  cases s.constraints[id.index]? <;> rfl

end System

end SoftLinear
