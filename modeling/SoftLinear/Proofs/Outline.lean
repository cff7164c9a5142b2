import SoftLinear.System.Measure
import SoftLinear.Pivot.Entry

/-!
# Outlines of systems

A solve may change three things of a system: values, pivots and flags.  What is left when these are forgotten is the
*outline* of the system.

* `System.SameOutline` relates systems that differ in values, pivots and flags only;
* `System.flag?` is the flag of a constraint, and `System.liveIds` is a filter by flags (`liveIds_eq_filter`);
* `System.SameRules` relates systems that differ in values and pivots only.
-/

namespace SoftLinear

variable {α : Type}

/-- A constraint without its flag and its pivot. -/
def Constraint.bare (c : Constraint α) : Constraint α := { c with enabled := true, pivot := none }

/-- What a slot says about its variable, the value left out. -/
def Slot.links (slot : Slot α) : Option String × List ConstraintId := (slot.name, slot.active)

theorem Variable.eq_of {v w : Variable} (howner : v.owner = w.owner) (hindex : v.index = w.index) : v = w := by
  cases v
  cases w
  simp_all

namespace System

/-- The flag of a constraint. -/
def flag? (s : System α) (id : ConstraintId) : Option Bool := (s.constraint? id).map (·.enabled)

/-- Two systems that differ at most in values, pivots and flags. -/
structure SameOutline (s t : System α) : Prop where
  id : t.id = s.id
  tolerance : t.tolerance = s.tolerance
  order : t.order = s.order
  attached : t.attached = s.attached
  slots : ∀ i : Nat, t.slots[i]?.map Slot.links = s.slots[i]?.map Slot.links
  places : t.constraints.size = s.constraints.size
  constraints : ∀ id, (t.constraint? id).map Constraint.bare = (s.constraint? id).map Constraint.bare

/-- Two systems that differ at most in values and pivots. -/
structure SameRules (s t : System α) : Prop extends SameOutline s t where
  flags : ∀ id, t.flag? id = s.flag? id

namespace SameOutline

variable {s t u : System α}

theorem refl (s : System α) : SameOutline s s := ⟨rfl, rfl, rfl, rfl, fun _ => rfl, rfl, fun _ => rfl⟩

theorem trans (h : SameOutline s t) (k : SameOutline t u) : SameOutline s u :=
  ⟨k.id.trans h.id, k.tolerance.trans h.tolerance, k.order.trans h.order, k.attached.trans h.attached,
    fun i => (k.slots i).trans (h.slots i), k.places.trans h.places,
    fun id => (k.constraints id).trans (h.constraints id)⟩

theorem slots_size (h : SameOutline s t) : t.slots.size = s.slots.size := by
  have hs : ∀ i : Nat, i < t.slots.size ↔ i < s.slots.size := by
    intro i
    have := congrArg Option.isSome (h.slots i)
    rw [Option.isSome_map, Option.isSome_map, Bool.eq_iff_iff] at this
    simpa using this
  have h1 := hs t.slots.size
  have h2 := hs s.slots.size
  omega

theorem isSome_constraint? (h : SameOutline s t) (id : ConstraintId) :
    (t.constraint? id).isSome = (s.constraint? id).isSome := by
  simpa using congrArg Option.isSome (h.constraints id)

theorem exists_constraint? (h : SameOutline s t) {id : ConstraintId} {c : Constraint α}
    (hc : t.constraint? id = some c) : ∃ d, s.constraint? id = some d ∧ c.bare = d.bare := by
  have hcd := h.constraints id
  rw [hc, Option.map_some, eq_comm, Option.map_eq_some_iff] at hcd
  obtain ⟨d, hd, e⟩ := hcd
  exact ⟨d, hd, e.symm⟩

theorem symm (h : SameOutline s t) : SameOutline t s :=
  ⟨h.id.symm, h.tolerance.symm, h.order.symm, h.attached.symm, fun i => (h.slots i).symm, h.places.symm,
    fun id => (h.constraints id).symm⟩

end SameOutline

namespace SameRules

variable {s t u : System α}

theorem refl (s : System α) : SameRules s s := ⟨.refl s, fun _ => rfl⟩

theorem trans (h : SameRules s t) (k : SameRules t u) : SameRules s u :=
  ⟨h.toSameOutline.trans k.toSameOutline, fun id => (k.flags id).trans (h.flags id)⟩

end SameRules

theorem isSome_flag? (s : System α) (id : ConstraintId) : (s.flag? id).isSome = (s.constraint? id).isSome :=
  Option.isSome_map

/-! ## Lists of live constraints -/

theorem live_cons (s : System α) (id : ConstraintId) (ids : List ConstraintId) :
    s.live (id :: ids) = (match s.constraint? id with
      | some c => if c.enabled then [(id, c)] else []
      | none => []) ++ s.live ids := by
  unfold live resolve
  cases h : s.constraint? id with
  | none => simp [h]
  | some c => cases he : c.enabled <;> simp [h, he]

theorem liveIds_eq_filter (s : System α) (ids : List ConstraintId) :
    s.liveIds ids = ids.filter fun id => s.flag? id = some true := by
  unfold liveIds
  induction ids with
  | nil => rfl
  | cons id ids ih =>
    rw [live_cons, List.map_append, ih]
    unfold flag?
    cases h : s.constraint? id with
    | none => simp [h]
    | some c => cases he : c.enabled <;> simp [h, he]

theorem mem_live {s : System α} {ids : List ConstraintId} {x : ConstraintId × Constraint α} :
    x ∈ s.live ids ↔ x.1 ∈ ids ∧ s.constraint? x.1 = some x.2 ∧ x.2.enabled = true := by
  obtain ⟨id, c⟩ := x
  simp only [live, resolve, List.mem_filter, List.mem_filterMap, Option.map_eq_some_iff, Prod.mk.injEq]
  constructor
  · rintro ⟨⟨id', hm, c', hc, rfl, rfl⟩, he⟩
    exact ⟨hm, hc, he⟩
  · rintro ⟨hm, hc, he⟩
    exact ⟨⟨id, hm, c, hc, rfl, rfl⟩, he⟩

theorem mem_liveIds {s : System α} {ids : List ConstraintId} {id : ConstraintId} :
    id ∈ s.liveIds ids ↔ id ∈ ids ∧ s.flag? id = some true := by
  rw [liveIds_eq_filter]
  simp

theorem live_liveIds (s : System α) (ids : List ConstraintId) : s.live (s.liveIds ids) = s.live ids := by
  induction ids with
  | nil => rfl
  | cons id ids ih =>
    have hcons : s.liveIds (id :: ids) = (if s.flag? id = some true then [id] else []) ++ s.liveIds ids := by
      rw [liveIds_eq_filter, liveIds_eq_filter, List.filter_cons]
      split <;> simp_all
    rw [hcons, live_cons]
    unfold flag?
    cases h : s.constraint? id with
    | none => simpa [h] using ih
    | some c => cases he : c.enabled <;> simp [h, he, live_cons, ih]

theorem SameRules.live_bare {s t : System α} (h : SameRules s t) (ids : List ConstraintId) :
    (t.live ids).map (fun x => (x.1, x.2.bare)) = (s.live ids).map fun x => (x.1, x.2.bare) := by
  induction ids with
  | nil => rfl
  | cons id ids ih =>
    rw [live_cons, live_cons, List.map_append, List.map_append, ih]
    congr 1
    have hb := h.constraints id
    have hf := h.flags id
    unfold flag? at hf
    cases hs : s.constraint? id with
    | none => rw [hs] at hb; simp only [Option.map_none, Option.map_eq_none_iff] at hb; rw [hb]
    | some c =>
      obtain ⟨d, hd, hbare⟩ := Option.map_eq_some_iff.mp (hb.trans (by rw [hs]; rfl))
      rw [hs, hd, Option.map_some, Option.map_some, Option.some.injEq] at hf
      rw [hd]
      cases he : c.enabled <;> simp [hf, he, hbare]

theorem SameRules.liveIds_eq {s t : System α} (h : SameRules s t) (ids : List ConstraintId) :
    t.liveIds ids = s.liveIds ids := by
  rw [liveIds_eq_filter, liveIds_eq_filter]
  simp only [h.flags]

theorem SameRules.enabledIds_eq {s t : System α} (h : SameRules s t) : t.enabledIds = s.enabledIds := by
  unfold enabledIds
  rw [h.liveIds_eq, h.order]

/-! ## Changing one constraint -/

theorem constraint?_modify (s : System α) (id other : ConstraintId) (f : Constraint α → Constraint α) :
    (s.modify id f).constraint? other = if other = id then (s.constraint? id).map f else s.constraint? other := by
  unfold modify
  cases hc : s.constraint? id with
  | none =>
    by_cases ho : other = id
    · simp [ho, hc]
    · simp [ho]
  | some c =>
    have hlt : id.index < s.constraints.size := by
      apply Nat.lt_of_not_le
      intro hge
      simp [constraint?, Array.getElem?_eq_none hge] at hc
    by_cases ho : other = id
    · subst ho
      simp [constraint?, hlt]
    · have hne : ¬ id.index = other.index := fun h => ho (by cases id; cases other; simp_all)
      simp [constraint?, hne, ho]

theorem modify_sameOutline (s : System α) (id : ConstraintId) {f : Constraint α → Constraint α}
    (hf : ∀ c, (f c).bare = c.bare) : SameOutline s (s.modify id f) where
  id := by unfold modify; split <;> rfl
  tolerance := by unfold modify; split <;> rfl
  order := by unfold modify; split <;> rfl
  attached := by unfold modify; split <;> rfl
  slots i := by unfold modify; split <;> rfl
  places := by unfold modify; split <;> simp
  constraints other := by
    rw [constraint?_modify]
    split
    · rename_i h
      subst h
      rw [Option.map_map]
      exact congrArg (fun g => Option.map g (s.constraint? other)) (funext hf)
    · rfl

theorem modify_slots (s : System α) (id : ConstraintId) (f : Constraint α → Constraint α) :
    (s.modify id f).slots = s.slots := by
  unfold modify
  split <;> rfl

theorem values_modify (s : System α) (id : ConstraintId) (f : Constraint α → Constraint α) :
    (s.modify id f).values = s.values := by
  unfold values
  rw [modify_slots]

theorem flag?_modify (s : System α) (id other : ConstraintId) (f : Constraint α → Constraint α) :
    (s.modify id f).flag? other =
      if other = id then (s.constraint? id).map fun c => (f c).enabled else s.flag? other := by
  unfold flag?
  rw [constraint?_modify]
  split
  · rw [Option.map_map]; rfl
  · rfl

/-! ## Slots -/

section Slots

variable {s t : System α} {v w : Variable} {slot : Slot α}

theorem slot?_eq (s : System α) (v : Variable) : s.slot? v = if v.owner = s.id then s.slots[v.index]? else none := by
  unfold slot? owns
  by_cases ho : v.owner = s.id
  · by_cases hi : v.index < s.slots.size
    · simp [ho, hi]
    · simp [ho, hi]
  · simp [ho]

theorem owns_of_slot? (h : s.slot? v = some slot) : s.owns v = true := by
  unfold slot? at h
  split at h
  · assumption
  · cases h

theorem exists_slot?_of_owns (h : s.owns v = true) : ∃ slot, s.slot? v = some slot := by
  have hlt : v.index < s.slots.size := by
    simp only [owns, Bool.and_eq_true, decide_eq_true_eq] at h
    exact h.2
  exact ⟨s.slots[v.index], by simp [slot?, h, hlt]⟩

theorem slot?_of_slots (hid : t.id = s.id) (hslots : t.slots = s.slots) (v : Variable) : t.slot? v = s.slot? v := by
  rw [slot?_eq, slot?_eq, hid, hslots]

theorem slot?_modify (id : ConstraintId) (f : Constraint α → Constraint α) (v : Variable) :
    (s.modify id f).slot? v = s.slot? v := by
  refine slot?_of_slots ?_ (modify_slots s id f) v
  unfold modify
  split <;> rfl

theorem slot?_addVariable [Scalar α] (name : Option String) (h : s.slot? v = some slot) :
    (s.addVariable name).1.slot? v = some slot := by
  have hlt : v.index < s.slots.size := by
    have howns := owns_of_slot? h
    simp only [owns, Bool.and_eq_true, decide_eq_true_eq] at howns
    exact howns.2
  have hne : v.index ≠ s.slots.size := by omega
  rw [slot?_eq] at h ⊢
  simp only [addVariable, Array.getElem?_push, hne, if_false]
  exact h

theorem slot?_updateSlot? {f : Slot α → Slot α} (h : s.updateSlot? w f = some t) (v : Variable) :
    t.slot? v = if v = w then (s.slot? v).map f else s.slot? v := by
  obtain ⟨old, hold, rfl⟩ := Option.map_eq_some_iff.mp h
  have howns := owns_of_slot? hold
  simp only [owns, Bool.and_eq_true, decide_eq_true_eq] at howns
  by_cases hvw : v = w
  · subst hvw
    rw [if_pos rfl, hold, slot?_eq, if_pos howns.1]
    simp [howns.2]
  · rw [if_neg hvw, slot?_eq, slot?_eq]
    by_cases ho : v.owner = s.id
    · have hne : w.index ≠ v.index := fun hi => hvw (Variable.eq_of (ho.trans howns.1.symm) hi.symm)
      simp [ho, Array.getElem?_setIfInBounds_ne hne]
    · simp [ho]

theorem exists_slot?_of_part {β : Type} {part : Slot α → β} (hid : t.id = s.id)
    (hslots : ∀ j : Nat, t.slots[j]?.map part = s.slots[j]?.map part) (hv : s.slot? v = some slot) :
    ∃ slot', t.slot? v = some slot' ∧ part slot' = part slot := by
  rw [slot?_eq] at hv
  split at hv
  · rename_i howner
    have hpart := hslots v.index
    rw [hv, Option.map_some, Option.map_eq_some_iff] at hpart
    obtain ⟨slot', hslot', hpart⟩ := hpart
    refine ⟨slot', ?_, hpart⟩
    rw [slot?_eq, hid, if_pos howner, hslot']
  · cases hv

theorem SameOutline.slot? (h : s.SameOutline t) (hv : s.slot? v = some slot) :
    ∃ slot', t.slot? v = some slot' ∧ slot'.name = slot.name := by
  obtain ⟨slot', hslot', hlinks⟩ := exists_slot?_of_part h.id h.slots hv
  exact ⟨slot', hslot', congrArg Prod.fst hlinks⟩

end Slots

/-! ## Switching constraints on and off -/

theorem setEnabledAll_sameOutline (s : System α) (ids : List ConstraintId) (b : Bool) :
    SameOutline s (s.setEnabledAll ids b) := by
  unfold setEnabledAll
  induction ids generalizing s with
  | nil => exact .refl s
  | cons id ids ih =>
    refine SameOutline.trans (modify_sameOutline s id ?_) (ih _)
    exact fun _ => rfl

theorem values_setEnabledAll (s : System α) (ids : List ConstraintId) (b : Bool) :
    (s.setEnabledAll ids b).values = s.values := by
  unfold setEnabledAll
  induction ids generalizing s with
  | nil => rfl
  | cons id ids ih => exact (ih _).trans (values_modify s id _)

theorem flag?_setEnabledAll (s : System α) (ids : List ConstraintId) (b : Bool) (id : ConstraintId) :
    (s.setEnabledAll ids b).flag? id = if id ∈ ids then (s.flag? id).map fun _ => b else s.flag? id := by
  unfold setEnabledAll
  induction ids generalizing s with
  | nil => simp
  | cons a ids ih =>
    rw [List.foldl_cons, ih, flag?_modify]
    by_cases ha : id = a
    · subst ha
      simp [flag?, Option.map_map, Function.comp_def]
    · simp [ha]

/-! ## Storing values -/

theorem storeValues_sameRules (s : System α) (p : Point α) : SameRules s (s.storeValues p) where
  id := rfl
  tolerance := rfl
  order := rfl
  attached := rfl
  places := rfl
  constraints _ := rfl
  flags _ := rfl
  slots i := by
    simp only [storeValues, Array.getElem?_mapIdx, Option.map_map]
    congr 1
    funext slot
    simp only [Function.comp_apply]
    split <;> rfl

@[simp] theorem size_values (s : System α) : s.values.size = s.slots.size := by simp [values]

theorem values_storeValues (s : System α) {p : Point α} (h : p.size = s.slots.size) :
    (s.storeValues p).values = p := by
  apply Array.ext
  · simp [values, storeValues, h]
  · intro i h1 h2
    simp [values, storeValues, h2]

theorem mapValues_sameRules (s : System α) (f : α → α) : SameRules s (s.mapValues f) where
  id := rfl
  tolerance := rfl
  order := rfl
  attached := rfl
  places := rfl
  constraints _ := rfl
  flags _ := rfl
  slots i := by
    simp only [mapValues, Array.getElem?_map, Option.map_map]
    rfl

/-! ## Noting pivots -/

theorem modify_pivot_sameRules (s : System α) (id : ConstraintId) (g : Constraint α → Option Nat) :
    SameRules s (s.modify id fun c => c.setPivot (g c)) where
  toSameOutline := modify_sameOutline s id fun _ => rfl
  flags other := by
    rw [flag?_modify]
    split
    · rename_i h; subst h; rfl
    · rfl

theorem apply_sameRules (entries : List PivotEntry) (s : System α) : SameRules s (PivotEntry.apply entries s) := by
  unfold PivotEntry.apply
  induction entries.filter (!·.duplicate) generalizing s with
  | nil => exact .refl s
  | cons e es ih => exact SameRules.trans (modify_pivot_sameRules s _ _) (ih _)

end System

end SoftLinear
