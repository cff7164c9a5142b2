import SoftLinear.Proofs.Invariance
import SoftLinear.Proofs.Judgement
import SoftLinear.Proofs.Suspension
import SoftLinear.Random
import SoftLinear.Solver

/-!
# The views of a system agree

A system keeps for each variable the constraints that name it, and a list of the variables that some constraint names.
Both are redundant: they could be read off the constraints.  `System.Linked` says that they are what one would read off,
and it holds after every history, whichever solvers are installed on the way.

* `System.Notes` says which constraints are noted at which variables, by a relation; `attach` adds one pair to the
  relation and `detach` takes one out, so that an insertion and a removal change the notes as they change the
  constraints;
* every other edit leaves the notes and the terms as they are (`System.SameTerms`), and so does a solve;
* a pivot is a position among the terms (`System.PivotsFit`): the only ways to write one are filtered.
-/

namespace SoftLinear

/-! ## Ascending lists -/

namespace ConstraintId

@[simp] theorem mem_insert {id other : ConstraintId} {ids : List ConstraintId} :
    other ∈ id.insert ids ↔ other = id ∨ other ∈ ids := by
  induction ids with
  | nil => simp [insert]
  | cons a rest ih =>
    unfold insert
    split
    · simp
    · split
      · rename_i h
        subst h
        simp
      · simp only [List.mem_cons, ih]
        tauto

@[simp] theorem mem_erase {id other : ConstraintId} {ids : List ConstraintId} :
    other ∈ id.erase ids ↔ other ∈ ids ∧ other ≠ id := by
  simp [erase]

theorem pairwise_insert {ids : List ConstraintId} (h : ids.Pairwise (·.index < ·.index)) (id : ConstraintId) :
    (id.insert ids).Pairwise (·.index < ·.index) := by
  induction ids with
  | nil => exact List.pairwise_singleton _ _
  | cons a rest ih =>
    obtain ⟨ha, hrest⟩ := List.pairwise_cons.mp h
    unfold insert
    split
    · rename_i hlt
      refine List.pairwise_cons.mpr ⟨?_, h⟩
      intro b hb
      rcases List.mem_cons.mp hb with rfl | hb
      · exact hlt
      · exact Nat.lt_trans hlt (ha b hb)
    · rename_i hle
      split
      · exact h
      · rename_i hne
        refine List.pairwise_cons.mpr ⟨?_, ih hrest⟩
        intro b hb
        rcases mem_insert.mp hb with rfl | hb
        · have : a.index ≠ b.index := fun e => hne (by cases a; cases b; simp_all)
          omega
        · exact ha b hb

theorem eq_of_ascending {ids ids' : List ConstraintId} (h : ids.Pairwise (·.index < ·.index))
    (h' : ids'.Pairwise (·.index < ·.index)) (hmem : ∀ id, id ∈ ids ↔ id ∈ ids') : ids = ids' := by
  have hantisymm : Std.Antisymm fun a b : ConstraintId => a.index < b.index :=
    ⟨fun a b hab hba => absurd hab (Nat.lt_asymm hba)⟩
  have hirrefl : Std.Irrefl fun a b : ConstraintId => a.index < b.index := ⟨fun a => Nat.lt_irrefl a.index⟩
  exact h.eq_of_mem_iff h' hmem

end ConstraintId

namespace System

variable {α : Type} {s t : System α} {R : Variable → ConstraintId → Prop} {id : ConstraintId} {v : Variable}

/-! ## Notes -/

/-- The constraints noted at the variables are those of a relation, and the attached variables those with a note. -/
structure Notes (s : System α) (R : Variable → ConstraintId → Prop) : Prop where
  mem : ∀ v id, id ∈ s.activeOf v ↔ R v id
  ascending : ∀ v, (s.activeOf v).Pairwise (·.index < ·.index)
  nodup : s.attached.Nodup
  attached : ∀ v, v ∈ s.attached ↔ s.activeOf v ≠ []

theorem Notes.congr {R' : Variable → ConstraintId → Prop} (h : Notes s R) (hR : ∀ v id, R v id ↔ R' v id) :
    Notes s R' :=
  ⟨fun v id => (h.mem v id).trans (hR v id), h.ascending, h.nodup, h.attached⟩

theorem Notes.of_same (h : Notes s R) (hactive : ∀ v, t.activeOf v = s.activeOf v) (hattached : t.attached = s.attached) :
    Notes t R where
  mem v id := by rw [hactive]; exact h.mem v id
  ascending v := by rw [hactive]; exact h.ascending v
  nodup := hattached ▸ h.nodup
  attached v := by rw [hattached, hactive]; exact h.attached v

theorem activeOf_eq (s : System α) (v : Variable) :
    s.activeOf v = if s.owns v then (s.slots[v.index]?.map (·.active)).getD [] else [] := by
  unfold activeOf slot?
  cases hv : s.owns v with
  | false => simp
  | true => cases s.slots[v.index]? <;> simp

theorem activeOf_setSlot (s : System α) (hv : s.owns v = true) (slot : Slot α) (attached : List Variable)
    (w : Variable) :
    activeOf { s with slots := s.slots.setIfInBounds v.index slot, attached := attached } w =
      if w = v then slot.active else s.activeOf w := by
  have howns : ∀ u, owns { s with slots := s.slots.setIfInBounds v.index slot, attached := attached } u = s.owns u := by
    intro u
    simp [owns]
  simp only [activeOf_eq, howns, Array.getElem?_setIfInBounds]
  simp only [owns, Bool.and_eq_true, decide_eq_true_eq] at hv
  by_cases hw : w = v
  · subst hw
    simp [owns, hv.1, hv.2]
  · rw [if_neg hw]
    by_cases ho : s.owns w = true
    · -- two variables of one system that differ stand in different slots
      have hne : ¬ v.index = w.index := by
        intro e
        simp only [owns, Bool.and_eq_true, decide_eq_true_eq] at ho
        exact hw (by cases v; cases w; simp_all)
      simp [hne]
    · simp [ho]

theorem exists_slot (hv : s.owns v = true) : ∃ slot, s.slots[v.index]? = some slot ∧ s.activeOf v = slot.active := by
  have hlt : v.index < s.slots.size := by
    simp only [owns, Bool.and_eq_true, decide_eq_true_eq] at hv
    exact hv.2
  refine ⟨s.slots[v.index], by simp [hlt], ?_⟩
  rw [activeOf_eq, if_pos hv]
  simp [hlt]

theorem Notes.attach (h : Notes s R) (hv : s.owns v = true) (id : ConstraintId) :
    Notes (s.attach id v) fun w j => R w j ∨ w = v ∧ j = id := by
  obtain ⟨slot, hslot, hactive⟩ := exists_slot hv
  have hattach : s.attach id v = { s with
      slots := s.slots.setIfInBounds v.index { slot with active := id.insert slot.active }
      attached := if slot.active.isEmpty then s.attached ++ [v] else s.attached } := by
    unfold System.attach
    rw [hslot]
  have hnew : ∀ w, (s.attach id v).activeOf w = if w = v then id.insert (s.activeOf v) else s.activeOf w := by
    intro w
    rw [hattach, activeOf_setSlot s hv, hactive]
  have hmem : ∀ w, w ∈ (s.attach id v).attached ↔ w ∈ s.attached ∨ w = v := by
    intro w
    rw [hattach]
    -- a variable that has a note is attached already
    by_cases he : slot.active = []
    · simp [he]
    · have hold : v ∈ s.attached := (h.attached v).mpr (hactive ▸ he)
      simp only [List.isEmpty_iff, he, if_false]
      exact ⟨.inl, fun hw => hw.elim (fun hw => hw) fun e => e ▸ hold⟩
  refine ⟨?_, ?_, ?_, ?_⟩
  · intro w j
    rw [hnew, ← h.mem]
    by_cases hw : w = v
    · subst hw
      simp [or_comm]
    · simp [hw]
  · intro w
    rw [hnew]
    split
    · exact ConstraintId.pairwise_insert (h.ascending v) id
    · exact h.ascending w
  · rw [hattach]
    -- only a variable without a note joins the attached ones
    by_cases he : slot.active = []
    · have hfresh : v ∉ s.attached := fun hm => (h.attached v).mp hm (hactive.trans he)
      simp only [he, List.isEmpty_nil, if_true]
      exact List.Nodup.append h.nodup (List.nodup_singleton v) (List.disjoint_singleton.mpr hfresh)
    · simp only [List.isEmpty_iff, he, if_false]
      exact h.nodup
  · intro w
    rw [hmem, hnew, h.attached]
    by_cases hw : w = v
    · have hne : id.insert (s.activeOf v) ≠ [] := List.ne_nil_of_mem (ConstraintId.mem_insert.mpr (.inl rfl))
      simp [hw, hne]
    · simp [hw]

theorem Notes.detach (h : Notes s R) (hv : s.owns v = true) (id : ConstraintId) :
    Notes (s.detach id v) fun w j => R w j ∧ ¬ (w = v ∧ j = id) := by
  obtain ⟨slot, hslot, hactive⟩ := exists_slot hv
  have hdetach : s.detach id v = { s with
      slots := s.slots.setIfInBounds v.index { slot with active := id.erase slot.active }
      attached := if (id.erase slot.active).isEmpty then s.attached.filter (· ≠ v) else s.attached } := by
    unfold System.detach
    rw [hslot]
  have hnew : ∀ w, (s.detach id v).activeOf w = if w = v then id.erase (s.activeOf v) else s.activeOf w := by
    intro w
    rw [hdetach, activeOf_setSlot s hv, hactive]
  refine ⟨?_, ?_, ?_, ?_⟩
  · intro w j
    rw [hnew, ← h.mem]
    by_cases hw : w = v
    · subst hw
      simp
    · simp [hw]
  · intro w
    rw [hnew]
    split
    · exact (h.ascending v).filter _
    · exact h.ascending w
  · rw [hdetach]
    dsimp only
    split
    · exact h.nodup.filter _
    · exact h.nodup
  · intro w
    rw [hnew, hdetach]
    -- the variable stays attached unless this was its last note
    by_cases he : id.erase slot.active = []
    · by_cases hw : w = v
      · simp [hw, he, hactive]
      · simp [hw, he, h.attached]
    · simp only [List.isEmpty_iff, he, if_false, h.attached]
      by_cases hw : w = v
      · subst hw
        rw [if_pos rfl, hactive]
        refine ⟨fun _ => he, fun _ hnil => he ?_⟩
        rw [hnil]
        rfl
      · rw [if_neg hw]

theorem SamePlaces.owns_eq (h : SamePlaces s t) (v : Variable) : t.owns v = s.owns v := by
  simp only [owns, h.id, h.size]

theorem Notes.foldl_attach (id : ConstraintId) (ts : List (Term α)) (h : Notes s R)
    (howned : ∀ x ∈ ts, s.owns x.var = true) :
    Notes (ts.foldl (fun s x => s.attach id x.var) s) fun w j => R w j ∨ w ∈ ts.map (·.var) ∧ j = id := by
  induction ts generalizing s R with
  | nil => exact h.congr fun w j => by simp
  | cons x ts ih =>
    have hplaces := attach_samePlaces id s x
    refine (ih (h.attach (howned x List.mem_cons_self) id) ?_).congr ?_
    · intro y hy
      rw [hplaces.owns_eq]
      exact howned y (List.mem_cons_of_mem x hy)
    · intro w j
      simp only [List.map_cons, List.mem_cons]
      tauto

theorem Notes.foldl_detach (id : ConstraintId) (ts : List (Term α)) (h : Notes s R)
    (howned : ∀ x ∈ ts, s.owns x.var = true) :
    Notes (ts.foldl (fun s x => s.detach id x.var) s) fun w j => R w j ∧ ¬ (w ∈ ts.map (·.var) ∧ j = id) := by
  induction ts generalizing s R with
  | nil => exact h.congr fun w j => by simp
  | cons x ts ih =>
    have hplaces := detach_samePlaces id s x
    refine (ih (h.detach (howned x List.mem_cons_self) id) ?_).congr ?_
    · intro y hy
      rw [hplaces.owns_eq]
      exact howned y (List.mem_cons_of_mem x hy)
    · intro w j
      simp only [List.map_cons, List.mem_cons]
      tauto

/-! ## Links -/

/-- A constraint names a variable. -/
def Names (s : System α) (v : Variable) (id : ConstraintId) : Prop :=
  ∃ c, s.constraint? id = some c ∧ v ∈ c.terms.map (·.var)

/-- What is noted at the variables is what the constraints name. -/
def Linked (s : System α) : Prop := s.Notes s.Names

variable [Scalar α]

theorem Notes.insert {c : Constraint α} (h : Notes s R) (hi : s.insert c = .ok (t, id)) :
    Notes t fun w j => R w j ∨ w ∈ c.terms.map (·.var) ∧ j = id := by
  have hfold := Notes.foldl_attach id c.terms h (inserted_of_insert hi).owned
  unfold System.insert at hi
  split at hi
  · cases hi
  · split at hi
    · simp only [Except.ok.injEq, Prod.mk.injEq] at hi
      obtain ⟨rfl, rfl⟩ := hi
      exact hfold.of_same (fun _ => rfl) rfl
    · cases hi

theorem linked_insert {c : Constraint α} (h : s.Linked) (hi : s.insert c = .ok (t, id)) :
    t.Linked := by
  have hinserted := inserted_of_insert hi
  -- the place was empty before, so no note is there for it yet
  have hold := hinserted.vacant
  refine (Notes.insert h hi).congr ?_
  intro w j
  unfold Names
  rw [hinserted.constraint]
  by_cases hj : j = id
  · subst hj
    simp [hold]
  · simp [hj]

omit [Scalar α] in
theorem constraint?_of_erase {c : Constraint α} (h : s.erase id = .ok (t, c)) : s.constraint? id = some c := by
  unfold erase require at h
  split at h
  · rename_i d hd
    simp only [bind, Except.bind, pure, Except.pure, Except.ok.injEq, Prod.mk.injEq] at h
    rw [hd, h.2]
  · cases h

omit [Scalar α] in
theorem Notes.erase {c : Constraint α} (h : Notes s R) (howned : ∀ x ∈ c.terms, s.owns x.var = true)
    (he : s.erase id = .ok (t, c)) : Notes t fun w j => R w j ∧ ¬ (w ∈ c.terms.map (·.var) ∧ j = id) := by
  have hc := constraint?_of_erase he
  unfold System.erase require at he
  rw [hc] at he
  simp only [bind, Except.bind, pure, Except.pure, Except.ok.injEq, Prod.mk.injEq, and_true] at he
  subst he
  exact Notes.foldl_detach id c.terms (h.of_same (fun _ => rfl) rfl) howned

theorem linked_erase {c : Constraint α} (hs : s.WellFormed) (h : s.Linked) (he : s.erase id = .ok (t, c)) :
    t.Linked := by
  have hc := constraint?_of_erase he
  refine (Notes.erase h (hs.fits hc).owned he).congr ?_
  intro w j
  unfold Names
  rw [(erased_of_erase he).constraint]
  by_cases hj : j = id
  · subst hj
    simp [hc]
  · simp [hj]

/-! ## Edits that leave the links alone -/

/-- Two systems with the same notes and the same terms in their constraints. -/
structure SameTerms (s t : System α) : Prop where
  active : ∀ v, t.activeOf v = s.activeOf v
  attached : t.attached = s.attached
  terms : ∀ id, (t.constraint? id).map (·.terms) = (s.constraint? id).map (·.terms)

namespace SameTerms

omit [Scalar α]

theorem names_iff (h : SameTerms s t) (v : Variable) (id : ConstraintId) : t.Names v id ↔ s.Names v id := by
  have key : ∀ u : System α, u.Names v id ↔ ∃ ts ∈ (u.constraint? id).map (·.terms), v ∈ ts.map (·.var) := by
    intro u
    unfold Names
    cases u.constraint? id <;> simp
  rw [key, key, h.terms]

theorem linked (h : SameTerms s t) (hs : s.Linked) : t.Linked :=
  (hs.of_same h.active h.attached).congr fun v id => (h.names_iff v id).symm

end SameTerms

omit [Scalar α] in
theorem SameOutline.sameTerms (h : SameOutline s t) : SameTerms s t where
  active v := by
    have howns : t.owns v = s.owns v := by simp only [owns, h.id, h.slots_size]
    have hactive : t.slots[v.index]?.map (·.active) = s.slots[v.index]?.map (·.active) := by
      have hlinks := congrArg (Option.map Prod.snd) (h.slots v.index)
      rw [Option.map_map, Option.map_map] at hlinks
      exact hlinks
    rw [activeOf_eq, activeOf_eq, howns, hactive]
  attached := h.attached
  terms id := by
    have hbare := congrArg (Option.map Constraint.terms) (h.constraints id)
    rw [Option.map_map, Option.map_map] at hbare
    exact hbare

omit [Scalar α] in
theorem modify_sameTerms (s : System α) (id : ConstraintId) {f : Constraint α → Constraint α}
    (hf : ∀ c, (f c).terms = c.terms) : SameTerms s (s.modify id f) where
  active v := by unfold modify; split <;> rfl
  attached := by unfold modify; split <;> rfl
  terms other := by
    rw [constraint?_modify]
    split
    · rename_i h
      subst h
      rw [Option.map_map]
      exact congrArg (fun g => Option.map g (s.constraint? other)) (funext hf)
    · rfl

theorem Revised.sameTerms {e : Edit α} (h : s.Revised e t) : SameTerms s t where
  active v := by
    unfold activeOf
    cases hs : s.slot? v with
    | none =>
      cases ht : t.slot? v with
      | none => rfl
      | some y => exact h.fresh v y hs ht
    | some x =>
      obtain ⟨y, hy, hxy⟩ := h.slots v x hs
      rw [hy]
      exact hxy.active
  attached := h.attached
  terms := h.map_constraint? fun _ _ hcd => hcd.terms

omit [Scalar α] in
theorem empty_linked [Scalar α] (i : Nat) : (empty i : System α).Linked where
  mem v id := by simp [activeOf_eq, empty, owns, Names, constraint?]
  ascending v := by simp [activeOf_eq, empty, owns]
  nodup := List.nodup_nil
  attached v := by simp [activeOf_eq, empty, owns]

end System

/-! ## Pivots -/

/-- The pivot of a constraint is the position of one of its terms. -/
def Constraint.PivotFits {α : Type} (c : Constraint α) : Prop := ∀ i ∈ c.pivot, i < c.terms.length

theorem Constraint.setPivot_fits {α : Type} (c : Constraint α) (pivot : Option Nat) : (c.setPivot pivot).PivotFits := by
  intro i hi
  obtain ⟨-, hlt⟩ := Option.filter_eq_some_iff.mp (hi : pivot.filter _ = some i)
  exact of_decide_eq_true hlt

namespace System

variable {α : Type} {s t : System α}

/-- Every pivot is the position of a term of its constraint. -/
def PivotsFit (s : System α) : Prop := ∀ id c, s.constraint? id = some c → c.PivotFits

theorem PivotsFit.of_constraints (h : s.PivotsFit) (ht : t.constraints = s.constraints) : t.PivotsFit := by
  intro id c hc
  unfold constraint? at hc
  rw [ht] at hc
  exact h id c hc

theorem PivotsFit.modify (h : s.PivotsFit) (id : ConstraintId) {f : Constraint α → Constraint α}
    (hf : ∀ c, c.PivotFits → (f c).PivotFits) : (s.modify id f).PivotsFit := by
  intro other c hc
  rw [constraint?_modify] at hc
  split at hc
  · obtain ⟨d, hd, rfl⟩ := Option.map_eq_some_iff.mp hc
    exact hf d (h id d hd)
  · exact h other c hc

theorem Revised.pivotsFit [Scalar α] {e : Edit α} (h : s.Revised e t) (hs : s.PivotsFit) : t.PivotsFit := by
  intro id d hd
  obtain ⟨c, hc, hcd⟩ := h.exists_constraint? hd
  rcases hcd.pivot with hpivot | ⟨pivot, rfl⟩
  · intro i hi
    rw [hcd.terms]
    exact hs id c hc i (hpivot ▸ hi)
  · exact c.setPivot_fits pivot

theorem PivotsFit.foldl_modify {β : Type} (place : β → ConstraintId) {f : β → Constraint α → Constraint α}
    (hf : ∀ x c, c.PivotFits → (f x c).PivotFits) (l : List β) (h : s.PivotsFit) :
    (l.foldl (fun s x => s.modify (place x) (f x)) s).PivotsFit := by
  induction l generalizing s with
  | nil => exact h
  | cons x l ih => exact ih (h.modify (place x) (hf x))

theorem PivotsFit.setEnabledAll (h : s.PivotsFit) (ids : List ConstraintId) (b : Bool) :
    (s.setEnabledAll ids b).PivotsFit :=
  PivotsFit.foldl_modify (fun id => id) (f := fun _ c => { c with enabled := b }) (fun _ _ hc => hc) ids h

theorem PivotsFit.apply (h : s.PivotsFit) (entries : List PivotEntry) : (PivotEntry.apply entries s).PivotsFit := by
  unfold PivotEntry.apply
  exact PivotsFit.foldl_modify PivotEntry.constraint (f := fun e c => c.setPivot (c.position? e.pivot))
    (fun _ c _ => c.setPivot_fits _) _ h

end System

/-! ## Solves -/

namespace Conflict

variable {α ρ : Type} [Scalar α] [Relaxation α ρ] {P : System α → Prop} {sorted : List ConstraintId} {budget : Nat}

omit [Scalar α] in
/-- A property of systems that every step of a strategy keeps. -/
structure Keeps (ρ : Type) [Relaxation α ρ] (P : System α → Prop) : Prop where
  switch : ∀ s ids b, P s → P (s.setEnabledAll ids b)
  restore : ∀ s p, P s → P (s.storeValues p)
  prepare : ∀ (r : Run α ρ) ids, P r.system → P (Relaxation.prepare r ids).system
  relax : ∀ (r : Run α ρ) n, P r.system → P (Relaxation.relax r n).1.system

/-- What every step of a strategy keeps, the strategy keeps. -/
theorem Keeps.resolve (h : Keeps ρ P) (strategy : Strategy) {r : Run α ρ} (hr : P r.system) :
    P (strategy.resolve r sorted budget).1.system :=
  StepInvariant.resolve (P := fun _ s => P s) (Q := fun _ => True)
    { switch := fun _ s ids b _ hs => h.switch s ids b hs
      restore := fun _ s p _ hs => h.restore s p hs
      commit := fun _ _ _ => trivial
      attempt := fun _ _ hs => h.relax _ _ (h.prepare _ _ hs) } strategy hr

end Conflict

section Solves

variable {α γ : Type} [Scalar α] [Generator γ] {s : System α}

theorem Engine.keeps_pivotsFit : Conflict.Keeps (Engine α γ) (System.PivotsFit (α := α)) where
  switch _ ids b h := h.setEnabledAll ids b
  restore _ _ h := h.of_constraints rfl
  prepare r ids h := by
    obtain ⟨e, s, scope⟩ := r
    cases e with
    | kaczmarz k => exact h
    | gaussSeidel g => exact h.apply _
    | forceDirected f => exact h
  relax r n h := by
    rw [(Engine.relax_run r n).1]
    exact h.of_constraints rfl

theorem System.PivotsFit.seed (h : s.PivotsFit) (reset : Bool) : (s.seed reset).PivotsFit := by
  unfold System.seed
  split
  · exact h.of_constraints rfl
  · exact h.of_constraints rfl

instance : Solver.Lawful α (AnySolver (Engine α γ)) where
  outline x s h := by
    cases x with
    | direct d => exact Solver.Lawful.outline d h
    | resolving d => exact Solver.Lawful.outline d h

theorem AnySolver.solve_pivotsFit (x : AnySolver (Engine α γ)) (h : s.PivotsFit) :
    (Solver.solve x s).system.PivotsFit := by
  have hkeeps := Engine.keeps_pivotsFit (α := α) (γ := γ)
  cases x with
  | direct d =>
    have hready : (d.task s).system.PivotsFit := by
      unfold DirectSolver.task DirectSolver.ready
      simp only
      split
      · exact h.seed d.reset
      · exact hkeeps.prepare _ _ (h.seed d.reset)
    exact hkeeps.relax _ _ hready
  | resolving d => exact hkeeps.resolve d.strategy ((h.seed d.reset).setEnabledAll d.suspended true)

end Solves

/-! ## Histories -/

namespace Model

variable {α σ : Type} [Scalar α] [Solver α σ]

/-- A quiet edit leaves notes, terms and the fit of the pivots alone. -/
theorem apply_quiet_sameTerms (m : Model α σ) {e : Edit α} (he : e.isQuiet = true) :
    m.system.SameTerms (m.apply e).system ∧ (m.system.PivotsFit → (m.apply e).system.PivotsFit) := by
  obtain ⟨t, ht, hrevised⟩ := m.apply_revised he
  rw [ht]
  exact ⟨hrevised.sameTerms, hrevised.pivotsFit⟩

theorem apply_linked [Solver.Lawful α σ] (m : Model α σ) (e : Edit α) (hs : m.system.WellFormed)
    (h : m.system.Linked) : (m.apply e).system.Linked := by
  by_cases hq : e.isQuiet = true
  · exact (m.apply_quiet_sameTerms hq).1.linked h
  cases e with
  | add d =>
    rcases m.apply_add d with ⟨-, -, he⟩ | ⟨t, id, -, hi, he⟩
    · rwa [he]
    · rw [he]
      exact System.linked_insert h hi
  | remove id =>
    rcases m.apply_remove id with he | ⟨t, c, hi, he⟩
    · rwa [he]
    · rw [he]
      exact System.linked_erase hs h hi
  | setEnabled id b =>
    rcases m.apply_setEnabled id b with ⟨-, -, he⟩ | ⟨-, -, he⟩
    · rwa [he]
    · rw [he]
      exact System.SameTerms.linked (m.system.modify_sameTerms id fun _ => rfl) h
  | solve => exact (solve_sameOutline hs).sameTerms.linked h
  | _ => exact absurd rfl hq

section Views

variable {γ : Type} [Generator γ]

theorem apply_pivotsFit (m : Model α (AnySolver (Engine α γ))) (e : Edit α) (h : m.system.PivotsFit) :
    (m.apply e).system.PivotsFit := by
  by_cases hq : e.isQuiet = true
  · exact (m.apply_quiet_sameTerms hq).2 h
  cases e with
  | add d =>
    rcases m.apply_add d with ⟨-, -, he⟩ | ⟨t, id, -, hi, he⟩
    · rwa [he]
    · rw [he]
      intro other c hc
      rw [(System.inserted_of_insert hi).constraint] at hc
      split at hc
      · -- the draft names any pivot, and the constraint drops one that is out of range
        obtain rfl := Option.some.inj hc
        exact Constraint.setPivot_fits _ d.pivot
      · exact h other c hc
  | remove id =>
    rcases m.apply_remove id with he | ⟨t, c, hi, he⟩
    · rwa [he]
    · rw [he]
      intro other c hc
      rw [(System.erased_of_erase hi).constraint] at hc
      split at hc
      · cases hc
      · exact h other c hc
  | setEnabled id b =>
    rcases m.apply_setEnabled id b with ⟨-, -, he⟩ | ⟨-, -, he⟩
    · rwa [he]
    · rw [he]
      exact h.modify id fun _ hc => hc
  | solve =>
    show m.solve.1.system.PivotsFit
    unfold Model.solve
    split
    · exact AnySolver.solve_pivotsFit _ h
    · exact h
  | _ => exact absurd rfl hq

end Views

end Model

/-- What can happen to a model: an edit, another solver, or a flag that is written without telling the solver. -/
inductive Action (α σ : Type) where
  | edit (e : Edit α)
  | install (solver : σ)
  /-- A change of a flag that the solver does not hear of. -/
  | flag (id : ConstraintId) (enabled : Bool)

namespace Model

variable {α σ : Type} [Scalar α] [Solver α σ]

/-- The model after an action. -/
def act (m : Model α σ) : Action α σ → Model α σ
  | .edit e => m.apply e
  | .install solver => { m with solver := some solver }
  | .flag id enabled => { m with system := m.system.modify id fun c => { c with enabled := enabled } }

/-- The model after a list of actions. -/
def perform (m : Model α σ) (actions : List (Action α σ)) : Model α σ := actions.foldl act m

/-- What every action keeps, every list of actions keeps. -/
theorem perform_induction {P : Model α σ → Prop} (hstep : ∀ m a, P m → P (m.act a)) {m : Model α σ} (h : P m)
    (actions : List (Action α σ)) : P (m.perform actions) := by
  unfold perform
  induction actions generalizing m with
  | nil => exact h
  | cons a actions ih => exact ih (hstep m a h)

theorem act_linked [Solver.Lawful α σ] (m : Model α σ) (a : Action α σ) (hs : m.system.WellFormed)
    (h : m.system.Linked) : (m.act a).system.WellFormed ∧ (m.act a).system.Linked := by
  cases a with
  | edit e => exact ⟨m.apply_wellFormed e hs, m.apply_linked e hs h⟩
  | install solver => exact ⟨hs, h⟩
  | flag id b =>
    refine ⟨hs.modify id fun c hc => ⟨hc.distinct, hc.owned, hc.penalty⟩, ?_⟩
    exact System.SameTerms.linked (m.system.modify_sameTerms id fun _ => rfl) h

variable {γ : Type} [Generator γ]

theorem act_views (m : Model α (AnySolver (Engine α γ))) (a : Action α (AnySolver (Engine α γ)))
    (h : m.system.WellFormed ∧ m.system.Linked ∧ m.system.PivotsFit) :
    (m.act a).system.WellFormed ∧ (m.act a).system.Linked ∧ (m.act a).system.PivotsFit := by
  obtain ⟨hs, hlinked, hpivots⟩ := h
  obtain ⟨hs', hlinked'⟩ := m.act_linked a hs hlinked
  refine ⟨hs', hlinked', ?_⟩
  cases a with
  | edit e => exact m.apply_pivotsFit e hpivots
  | install solver => exact hpivots
  | flag id b => exact hpivots.modify id fun _ hc => hc

/-- **The views of a system agree** after any sequence of edits, solves and installations of solvers: the order lists the
places that are not empty, ascending; a constraint names each variable once and only variables of its system; noted at a
variable are exactly the constraints that name it; attached are exactly the variables with a note, each once; a penalty
is above zero and at most one; and a pivot is the position of a term. -/
theorem perform_views [Scalar.Ordered α] (i : Nat) (solver : Option (AnySolver (Engine α γ)))
    (actions : List (Action α (AnySolver (Engine α γ)))) :
    let s := ((Model.new i solver).perform actions).system
    s.order.Pairwise (·.index < ·.index) ∧
    (∀ id, id ∈ s.order ↔ (s.constraint? id).isSome = true) ∧
    (∀ id c, s.constraint? id = some c →
      (∀ t ∈ c.terms, t.var.owner = s.id ∧ t.var.index < s.slots.size) ∧ (c.terms.map (·.var)).Nodup ∧
      (0 < c.penalty ∧ c.penalty ≤ 1) ∧ ∀ p, c.pivot = some p → p < c.terms.length) ∧
    (∀ v, (s.activeOf v).Nodup ∧
      ∀ id, id ∈ s.activeOf v ↔ ∃ c, s.constraint? id = some c ∧ v ∈ c.terms.map (·.var)) ∧
    s.attached.Nodup ∧ ∀ v, v ∈ s.attached ↔ s.activeOf v ≠ [] := by
  intro s
  -- all views are read off three invariants
  obtain ⟨hs, hlinked, hpivots⟩ : s.WellFormed ∧ s.Linked ∧ s.PivotsFit := by
    refine perform_induction (P := fun m => m.system.WellFormed ∧ m.system.Linked ∧ m.system.PivotsFit) act_views ?_
      actions
    refine ⟨System.empty_wellFormed i, System.empty_linked i, ?_⟩
    intro id c hc
    simp [Model.new, System.empty, System.constraint?] at hc
  refine ⟨hs.sorted, hs.listed, ?_, ?_, hlinked.nodup, hlinked.attached⟩
  · intro id c hc
    have hfits := hs.fits hc
    have hpenalty := hfits.penalty
    simp only [isPenalty, Bool.and_eq_true, decide_eq_true_eq] at hpenalty
    refine ⟨?_, hfits.distinct, ⟨hpenalty.1.2, hpenalty.2⟩, hpivots id c hc⟩
    intro t ht
    simpa [System.owns] using hfits.owned t ht
  · intro v
    refine ⟨(hlinked.ascending v).imp ?_, hlinked.mem v⟩
    intro a b hlt hab
    rw [hab] at hlt
    exact Nat.lt_irrefl _ hlt

/-- A constraint over binary64 is removed between two solves by different solvers: of its variables, the one that the
other constraint names stays attached. -/
theorem perform_views_of_removal :
    let m : Model Float (AnySolver (Engine Float KeyStream)) := (Model.new 0 none).perform
      [.edit (.addVariable none), .edit (.addVariable none),
        .edit (.add ⟨[⟨1, ⟨0, 0⟩⟩, ⟨1, ⟨0, 1⟩⟩, ⟨1, ⟨0, 0⟩⟩], .eq, .fixed 4, 1, true, none, none⟩),
        .edit (.add ⟨[⟨2, ⟨0, 1⟩⟩], .ge, .fixed 1, 0.5, true, some 0, none⟩),
        .install (.direct (.new (.gaussSeidel ⟨.deterministic, 2, 1, [], [], none⟩) false)), .edit .solve,
        .edit (.remove ⟨0⟩), .install (.resolving (.new .binarySearch (.kaczmarz ⟨2, 1, 1, []⟩) false none)), .edit .solve]
    m.system.attached = [⟨0, 1⟩] ∧ m.system.activeOf ⟨0, 0⟩ = [] ∧ m.system.activeOf ⟨0, 1⟩ ≠ [] := by
  intro m
  have hattached : m.system.attached = [⟨0, 1⟩] := by decide +kernel
  obtain ⟨-, -, -, -, -, hmem⟩ := perform_views (α := Float) (γ := KeyStream) 0 none
    [.edit (.addVariable none), .edit (.addVariable none),
      .edit (.add ⟨[⟨1, ⟨0, 0⟩⟩, ⟨1, ⟨0, 1⟩⟩, ⟨1, ⟨0, 0⟩⟩], .eq, .fixed 4, 1, true, none, none⟩),
      .edit (.add ⟨[⟨2, ⟨0, 1⟩⟩], .ge, .fixed 1, 0.5, true, some 0, none⟩),
      .install (.direct (.new (.gaussSeidel ⟨.deterministic, 2, 1, [], [], none⟩) false)), .edit .solve,
      .edit (.remove ⟨0⟩), .install (.resolving (.new .binarySearch (.kaczmarz ⟨2, 1, 1, []⟩) false none)), .edit .solve]
  replace hmem : ∀ v, v ∈ m.system.attached ↔ m.system.activeOf v ≠ [] := hmem
  refine ⟨hattached, ?_, (hmem _).mp (by rw [hattached]; decide)⟩
  by_contra hne
  have hin := (hmem _).mpr hne
  rw [hattached] at hin
  exact absurd hin (by decide)

end Model

end SoftLinear
