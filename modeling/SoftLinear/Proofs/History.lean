import SoftLinear.Model
import SoftLinear.Proofs.WellFormed

/-!
# Histories

A history is a list of edits of a model, solves included, and `Model.replay` the model that it leads to.  An edit that is
refused changes nothing.  Most edits are quiet: they touch neither the list of constraints nor their flags, and the
solver does not hear of them.  What such an edit can do to slots and constraints is said once (`System.Revised`,
`Model.apply_revised`); what it keeps is read off from there.

A solver that keeps the outline of the systems it solves (`Solver.Lawful`) leads through well-formed systems only
(`Model.replay_wellFormed`).
-/

namespace SoftLinear

/-- A constraint on its way into a system. -/
structure Draft (α : Type) where
  /-- The weighted variables, possibly with repetitions. -/
  terms : List (Term α)
  relation : Relation
  rightSide : RightSide α
  penalty : α
  enabled : Bool
  pivot : Option Nat
  name : Option String

/-- The constraint that a draft stands for. -/
def Draft.constraint {α : Type} [Scalar α] (d : Draft α) : Constraint α :=
  { Constraint.build d.terms d.relation d.rightSide with
    penalty := d.penalty, enabled := d.enabled, name := d.name }.setPivot d.pivot

theorem Draft.nodup_vars {α : Type} [Scalar α] (d : Draft α) : (d.constraint.terms.map (·.var)).Nodup :=
  Term.nodup_merge d.terms

/-- What a caller can do with a model. -/
inductive Edit (α : Type) where
  | addVariable (name : Option String)
  | rename (v : Variable) (name : String)
  | setValue (v : Variable) (value : α)
  | storeValues (p : Point α)
  | resetValues
  | fillUnset
  | setTolerance (tolerance : α)
  | observe (source : Nat) (reading : α)
  | add (d : Draft α)
  | remove (id : ConstraintId)
  | setEnabled (id : ConstraintId) (enabled : Bool)
  | setPenalty (id : ConstraintId) (penalty : α)
  | setRightSide (id : ConstraintId) (rightSide : RightSide α)
  | setPivot (id : ConstraintId) (pivot : Option Nat)
  | solve

/-- Whether an edit touches neither the list of constraints nor their flags. -/
def Edit.isQuiet {α : Type} : Edit α → Bool
  | add _ | remove _ | setEnabled .. | solve => false
  | _ => true

/-! ## What a quiet edit can do -/

section Revised

variable {α : Type} [Scalar α] {e : Edit α} {s t : System α}

/-- What a quiet edit can do to a constraint: terms and flag stay, the penalty stays in range, and a pivot is chosen among
the terms. -/
structure Constraint.Revised (c d : Constraint α) : Prop where
  terms : d.terms = c.terms
  enabled : d.enabled = c.enabled
  penalty : isPenalty c.penalty = true → isPenalty d.penalty = true
  pivot : d.pivot = c.pivot ∨ ∃ pivot, d = c.setPivot pivot

/-- What a quiet edit can do to the slot of a variable: the name and the value stay unless the edit is there to write
them. -/
structure Slot.Revised (e : Edit α) (v : Variable) (x y : Slot α) : Prop where
  active : y.active = x.active
  name : y.name = x.name ∨ ∃ name, e = .rename v name
  value : y.value = x.value ∨ (∃ value, e = .setValue v value) ∨ (∃ p, e = .storeValues p) ∨ e = .resetValues ∨
    e = .fillUnset

namespace System

/-- **What a quiet edit can do to a system.**  Slots and constraints are revised one by one, and a new variable is named by
no constraint. -/
structure Revised (e : Edit α) (s t : System α) : Prop where
  id : t.id = s.id
  order : t.order = s.order
  attached : t.attached = s.attached
  places : t.constraints.size = s.constraints.size
  tolerance : 0 < s.tolerance → 0 < t.tolerance
  constraints : ∀ id, Option.Rel Constraint.Revised (s.constraint? id) (t.constraint? id)
  slots : ∀ v x, s.slot? v = some x → ∃ y, t.slot? v = some y ∧ x.Revised e v y
  fresh : ∀ v y, s.slot? v = none → t.slot? v = some y → y.active = []

namespace Revised

/-! ### One edit each -/

theorem rel_refl (c? : Option (Constraint α)) : Option.Rel Constraint.Revised c? c? := by
  cases c? with
  | none => exact .none
  | some c => exact .some ⟨rfl, rfl, fun h => h, .inl rfl⟩

/-- An edit that rewrites slots in place, each by itself. -/
theorem of_slots {slots : Array (Slot α)} (f : Variable → Slot α → Slot α)
    (hslots : ∀ v, ({ s with slots := slots } : System α).slot? v = (s.slot? v).map (f v))
    (hf : ∀ v (x : Slot α), x.Revised e v (f v x)) : Revised e s { s with slots := slots } where
  id := rfl
  order := rfl
  attached := rfl
  places := rfl
  tolerance h := h
  constraints _ := rel_refl _
  slots v x hx := ⟨f v x, by rw [hslots, hx]; rfl, hf v x⟩
  fresh v y hx hy := by rw [hslots, hx] at hy; cases hy

/-- An edit that rewrites constraints in their places. -/
theorem of_constraints {cs : Array (Option (Constraint α))} (hsize : cs.size = s.constraints.size)
    (hcs : ∀ id, Option.Rel Constraint.Revised (s.constraint? id)
      (({ s with constraints := cs } : System α).constraint? id)) : Revised e s { s with constraints := cs } where
  id := rfl
  order := rfl
  attached := rfl
  places := hsize
  tolerance h := h
  constraints := hcs
  slots _ x hx := ⟨x, hx, rfl, .inl rfl, .inl rfl⟩
  fresh v y hx hy := by
    rw [show s.slot? v = some y from hy] at hx
    cases hx

theorem refl (e : Edit α) (s : System α) : Revised e s s := of_constraints rfl fun _ => rel_refl _

theorem addVariable (s : System α) (name : Option String) : Revised (.addVariable name) s (s.addVariable name).1 where
  id := rfl
  order := rfl
  attached := rfl
  places := rfl
  tolerance h := h
  constraints _ := rel_refl _
  slots _ x hx := ⟨x, slot?_addVariable name hx, rfl, .inl rfl, .inl rfl⟩
  fresh v y hx hy := by
    rw [slot?_eq] at hx hy
    by_cases ho : v.owner = s.id
    · rw [if_pos ho] at hx
      rw [if_pos (show v.owner = (s.addVariable name).1.id from ho)] at hy
      simp only [System.addVariable, Array.getElem?_push] at hy
      split at hy
      · obtain rfl := Option.some.inj hy
        rfl
      · rw [hx] at hy
        cases hy
    · rw [if_neg (show ¬ v.owner = (s.addVariable name).1.id from ho)] at hy
      cases hy

theorem updateSlot (v : Variable) {f : Slot α → Slot α} (hf : ∀ x : Slot α, x.Revised e v (f x)) :
    Revised e s ((s.updateSlot? v f).getD s) := by
  cases ht : s.updateSlot? v f with
  | none => exact refl e s
  | some t =>
    have hslot := slot?_updateSlot? ht
    obtain ⟨x, hx, rfl⟩ := Option.map_eq_some_iff.mp ht
    refine of_slots (fun w => if w = v then f else fun x => x) (fun w => ?_) fun w x => ?_
    · rw [hslot]
      split
      · rfl
      · exact Option.map_id'.symm
    · split
      · rename_i hw
        exact hw ▸ hf x
      · exact ⟨rfl, .inl rfl, .inl rfl⟩

theorem mapValues {f : α → α} (he : e = .resetValues ∨ e = .fillUnset) : Revised e s (s.mapValues f) := by
  refine of_slots (fun _ x => { x with value := f x.value }) (fun v => ?_) fun v x => ⟨rfl, .inl rfl, .inr (.inr (.inr he))⟩
  rw [slot?_eq, slot?_eq, Array.getElem?_map]
  split <;> rfl

theorem storeValues (p : Point α) : Revised (.storeValues p) s (s.storeValues p) := by
  refine of_slots (fun v x => p[v.index]?.elim x fun value => { x with value := value }) (fun v => ?_) fun v x => ?_
  · rw [slot?_eq, slot?_eq, Array.getElem?_mapIdx]
    cases p[v.index]? <;> split <;> rfl
  · have hvalue : ∀ value, x.Revised (.storeValues p) v { x with value := value } :=
      fun value => ⟨rfl, .inl rfl, .inr (.inr (.inl ⟨p, rfl⟩))⟩
    cases p[v.index]? with
    | none => exact hvalue x.value
    | some value => exact hvalue value

theorem setTolerance (s : System α) (tolerance : α) : Revised e s (s.setTolerance tolerance) := by
  unfold System.setTolerance
  split
  · rename_i h
    simp only [isTolerance, Bool.and_eq_true, decide_eq_true_eq] at h
    exact { refl e s with tolerance := fun _ => h.2 }
  · exact refl e s

theorem observe (s : System α) (source : Nat) (reading : α) : Revised e s (s.observe source reading) := by
  refine of_constraints Array.size_map fun id => ?_
  show Option.Rel Constraint.Revised (s.constraint? id) ((s.observe source reading).constraint? id)
  rw [constraint?_observe]
  cases s.constraint? id with
  | none => exact .none
  | some c => exact .some ⟨rfl, rfl, fun h => h, .inl rfl⟩

theorem modify (id : ConstraintId) {f : Constraint α → Constraint α} (hf : ∀ c : Constraint α, c.Revised (f c)) :
    Revised e s (s.modify id f) := by
  have hrel : ∀ other, Option.Rel Constraint.Revised (s.constraint? other) ((s.modify id f).constraint? other) := by
    intro other
    rw [constraint?_modify]
    split
    · rename_i hother
      subst hother
      cases s.constraint? other with
      | none => exact .none
      | some c => exact .some (hf c)
    · exact rel_refl _
  unfold System.modify at hrel ⊢
  split
  · rename_i c hc
    simp only [hc] at hrel
    exact of_constraints Array.size_setIfInBounds hrel
  · exact refl e s

/-! ### What follows -/

theorem map_constraint? {β : Type} {part : Constraint α → β} (h : Revised e s t)
    (hpart : ∀ c d, c.Revised d → part d = part c) (id : ConstraintId) :
    (t.constraint? id).map part = (s.constraint? id).map part := by
  have hrel := h.constraints id
  generalize s.constraint? id = c?, t.constraint? id = d? at hrel ⊢
  cases hrel with
  | none => rfl
  | some hcd => exact congrArg some (hpart _ _ hcd)

theorem exists_constraint? (h : Revised e s t) {id : ConstraintId} {d : Constraint α} (hd : t.constraint? id = some d) :
    ∃ c, s.constraint? id = some c ∧ c.Revised d := by
  have hrel := h.constraints id
  rw [hd] at hrel
  generalize s.constraint? id = c? at hrel ⊢
  cases hrel with
  | some hcd => exact ⟨_, rfl, hcd⟩

theorem flag? (h : Revised e s t) (id : ConstraintId) : t.flag? id = s.flag? id :=
  h.map_constraint? (fun _ _ hcd => hcd.enabled) id

theorem owns (h : Revised e s t) {v : Variable} (hv : s.owns v = true) : t.owns v = true := by
  obtain ⟨x, hx⟩ := exists_slot?_of_owns hv
  obtain ⟨y, hy, -⟩ := h.slots v x hx
  exact owns_of_slot? hy

theorem wellFormed (h : Revised e s t) (hs : s.WellFormed) : t.WellFormed where
  sorted := h.order ▸ hs.sorted
  listed id := by
    rw [h.order, ← isSome_flag?, h.flag?, isSome_flag?]
    exact hs.listed id
  fits hd := by
    obtain ⟨c, hc, hcd⟩ := h.exists_constraint? hd
    have hfits := hs.fits hc
    exact ⟨hcd.terms ▸ hfits.distinct, fun x hx => h.owns (hfits.owned x (hcd.terms ▸ hx)), hcd.penalty hfits.penalty⟩
  tolerance := h.tolerance hs.tolerance

end Revised

end System

end Revised

namespace Model

variable {α σ : Type} [Scalar α] [Solver α σ]

omit [Scalar α] [Solver α σ] in
/-- The model after an edit that may be refused. -/
def after (m : Model α σ) : Except (Error α) (Model α σ) → Model α σ
  | .ok m' => m'
  | .error _ => m

/-- The model after an edit. -/
def apply (m : Model α σ) : Edit α → Model α σ
  | .addVariable name => { m with system := (m.system.addVariable name).1 }
  | .rename v name => { m with system := (m.system.rename? v name).getD m.system }
  | .setValue v value => { m with system := (m.system.setValue? v value).getD m.system }
  | .storeValues p => { m with system := m.system.storeValues p }
  | .resetValues => { m with system := m.system.resetValues }
  | .fillUnset => { m with system := m.system.fillUnset }
  | .setTolerance tolerance => (m.setTolerance tolerance).1
  | .observe source reading => { m with system := m.system.observe source reading }
  | .add d => m.after ((m.insert d.constraint).map (·.1))
  | .remove id => m.after ((m.erase id).map (·.1))
  | .setEnabled id enabled => m.after (m.setEnabled id enabled)
  | .setPenalty id penalty => m.after (m.setPenalty id penalty)
  | .setRightSide id rightSide => m.after (m.setRightSide id rightSide)
  | .setPivot id pivot => { m with system := m.system.modify id (·.setPivot pivot) }
  | .solve => m.solve.1

/-- The model after a history. -/
def replay (m : Model α σ) (edits : List (Edit α)) : Model α σ := edits.foldl apply m

/-- What every edit keeps, every history keeps. -/
theorem replay_induction {P : Model α σ → Prop} (hstep : ∀ m e, P m → P (m.apply e)) {m : Model α σ} (h : P m)
    (edits : List (Edit α)) : P (m.replay edits) := by
  unfold replay
  induction edits generalizing m with
  | nil => exact h
  | cons e edits ih => exact ih (hstep m e h)

/-! ## Quiet edits -/

/-- A change of a system that touches neither the list of constraints nor their flags. -/
structure Quiet (s t : System α) : Prop where
  order : t.order = s.order
  flags : ∀ id, t.flag? id = s.flag? id
  wellFormed : s.WellFormed → t.WellFormed

omit [Solver α σ] in
theorem quiet_refl (s : System α) : Quiet s s := ⟨rfl, fun _ => rfl, id⟩

omit [Solver α σ] in
theorem quiet_of_rules {s t : System α} (h : s.SameRules t) : Quiet s t :=
  ⟨h.order, h.flags, h.toSameOutline.wellFormed⟩

/-- **A quiet edit revises the system and does nothing else.** -/
theorem apply_revised (m : Model α σ) {e : Edit α} (he : e.isQuiet = true) :
    ∃ t, m.apply e = { m with system := t } ∧ m.system.Revised e t := by
  cases e with
  | addVariable name => exact ⟨_, rfl, .addVariable m.system name⟩
  | rename v name => exact ⟨_, rfl, .updateSlot v fun x => ⟨rfl, .inr ⟨name, rfl⟩, .inl rfl⟩⟩
  | setValue v value => exact ⟨_, rfl, .updateSlot v fun x => ⟨rfl, .inl rfl, .inr (.inl ⟨value, rfl⟩)⟩⟩
  | storeValues p => exact ⟨_, rfl, .storeValues p⟩
  | resetValues => exact ⟨_, rfl, .mapValues (.inl rfl)⟩
  | fillUnset => exact ⟨_, rfl, .mapValues (.inr rfl)⟩
  | setTolerance tolerance => exact ⟨_, rfl, .setTolerance m.system tolerance⟩
  | observe source reading => exact ⟨_, rfl, .observe m.system source reading⟩
  | setPenalty id penalty =>
    -- a request that is refused leaves the system as it is
    simp only [apply, Model.setPenalty, System.setPenalty, System.require]
    cases m.system.constraint? id with
    | none => exact ⟨m.system, rfl, .refl _ _⟩
    | some c =>
      cases hp : isPenalty penalty with
      | false => exact ⟨m.system, rfl, .refl _ _⟩
      | true => exact ⟨_, rfl, .modify id fun c => ⟨rfl, rfl, fun _ => hp, .inl rfl⟩⟩
  | setRightSide id rightSide =>
    simp only [apply, Model.setRightSide, System.setRightSide, System.require]
    cases m.system.constraint? id with
    | none => exact ⟨m.system, rfl, .refl _ _⟩
    | some c => exact ⟨_, rfl, .modify id fun c => ⟨rfl, rfl, fun h => h, .inl rfl⟩⟩
  | setPivot id pivot => exact ⟨_, rfl, .modify id fun c => ⟨rfl, rfl, fun h => h, .inr ⟨pivot, rfl⟩⟩⟩
  | add d => cases he
  | remove id => cases he
  | setEnabled id b => cases he
  | solve => cases he

theorem apply_quiet (m : Model α σ) {e : Edit α} (he : e.isQuiet = true) :
    ∃ t, m.apply e = { m with system := t } ∧ Quiet m.system t := by
  obtain ⟨t, ht, hrevised⟩ := m.apply_revised he
  exact ⟨t, ht, hrevised.order, hrevised.flag?, hrevised.wellFormed⟩

/-! ## The other edits -/

theorem apply_add (m : Model α σ) (d : Draft α) :
    (∃ e, m.insert d.constraint = .error e ∧ m.apply (.add d) = m) ∨
    ∃ t id, m.insert d.constraint = .ok (m.apply (.add d), id) ∧ m.system.insert d.constraint = .ok (t, id) ∧
      m.apply (.add d) = { m with system := t, solver := m.solver.map fun x => Solver.added x t id } := by
  cases h : m.system.insert d.constraint with
  | error e =>
    refine .inl ⟨e, ?_, ?_⟩
    · simp [Model.insert, h, bind, Except.bind]
    · simp [apply, Model.insert, h, bind, Except.bind, Except.map, after]
  | ok x =>
    refine .inr ⟨x.1, x.2, ?_, rfl, ?_⟩
    · simp [apply, Model.insert, h, bind, Except.bind, Except.map, after, pure, Except.pure]
    · simp [apply, Model.insert, h, bind, Except.bind, Except.map, after, pure, Except.pure]

theorem apply_remove (m : Model α σ) (id : ConstraintId) : m.apply (.remove id) = m ∨
    ∃ t c, m.system.erase id = .ok (t, c) ∧
      m.apply (.remove id) = { m with system := t, solver := m.solver.map fun x => Solver.removed x t id c } := by
  cases h : m.system.erase id with
  | error e => exact .inl (by simp [apply, Model.erase, h, bind, Except.bind, Except.map, after])
  | ok x =>
    refine .inr ⟨x.1, x.2, rfl, ?_⟩
    simp [apply, Model.erase, h, bind, Except.bind, Except.map, after, pure, Except.pure]

theorem apply_setEnabled (m : Model α σ) (id : ConstraintId) (b : Bool) :
    (∃ e, m.setEnabled id b = .error e ∧ m.apply (.setEnabled id b) = m) ∨
    (m.setEnabled id b = .ok (m.apply (.setEnabled id b)) ∧ (m.system.constraint? id).isSome = true ∧
      let t := m.system.modify id fun c => { c with enabled := b }
      m.apply (.setEnabled id b) =
        { m with system := t, solver := m.solver.map fun x => Solver.enabled x t id b }) := by
  cases h : m.system.constraint? id with
  | none =>
    refine .inl ⟨.unknownConstraint id, ?_, ?_⟩
    · simp [Model.setEnabled, System.setEnabled, System.require, h, bind, Except.bind]
    · simp [apply, Model.setEnabled, System.setEnabled, System.require, h, bind, Except.bind, after]
  | some c =>
    refine .inr ⟨?_, rfl, ?_⟩
    · simp [apply, Model.setEnabled, System.setEnabled, System.require, h, bind, Except.bind, after, pure, Except.pure]
    · simp [apply, Model.setEnabled, System.setEnabled, System.require, h, bind, Except.bind, after, pure, Except.pure]

omit [Scalar α] in
theorem solve_of_solver {m : Model α σ} {x : σ} (h : m.solver = some x) :
    m.solve = let a := Solver.solve x m.system; (⟨a.system, some a.solver, some a.status⟩, a.status, a.log) := by
  unfold Model.solve
  rw [h]

end Model

/-! ## What solvers keep -/

/-- A property of solvers that every call of a solver keeps. -/
structure Solver.Keeps (α : Type) {σ : Type} [Solver α σ] (P : σ → Prop) : Prop where
  solve : ∀ x (s : System α), P x → P (Solver.solve x s).solver
  added : ∀ x (s : System α) id, P x → P (Solver.added x s id)
  enabled : ∀ x (s : System α) id b, P x → P (Solver.enabled x s id b)
  removed : ∀ x (s : System α) id c, P x → P (Solver.removed x s id c)

theorem Model.apply_keeps {α σ : Type} [Scalar α] [Solver α σ] {P : σ → Prop} (h : Solver.Keeps α P)
    {m : Model α σ} (hm : ∃ x, m.solver = some x ∧ P x) (e : Edit α) : ∃ x, (m.apply e).solver = some x ∧ P x := by
  obtain ⟨x, hx, hP⟩ := hm
  by_cases hq : e.isQuiet = true
  · obtain ⟨t, he, -⟩ := m.apply_quiet hq
    exact ⟨x, by rw [he]; exact hx, hP⟩
  cases e with
  | add d =>
    rcases m.apply_add d with ⟨-, -, he⟩ | ⟨t, id, -, -, he⟩
    · exact ⟨x, by rw [he]; exact hx, hP⟩
    · exact ⟨_, by rw [he, hx]; rfl, h.added x t id hP⟩
  | remove id =>
    rcases m.apply_remove id with he | ⟨t, c, -, he⟩
    · exact ⟨x, by rw [he]; exact hx, hP⟩
    · exact ⟨_, by rw [he, hx]; rfl, h.removed x t id c hP⟩
  | setEnabled id b =>
    rcases m.apply_setEnabled id b with ⟨-, -, he⟩ | ⟨-, -, he⟩
    · exact ⟨x, by rw [he]; exact hx, hP⟩
    · exact ⟨_, by rw [he, hx]; rfl, h.enabled x _ id b hP⟩
  | solve =>
    refine ⟨_, ?_, h.solve x m.system hP⟩
    show m.solve.1.solver = _
    rw [solve_of_solver hx]
  | _ => exact absurd rfl hq

/-! ## Well-formed systems all along -/

theorem System.seed_sameRules {α : Type} [Scalar α] (s : System α) (reset : Bool) : s.SameRules (s.seed reset) := by
  unfold System.seed
  split
  · exact mapValues_sameRules _ _
  · exact mapValues_sameRules _ _

/-- What a solve by any solver of the library leaves alone. -/
class Solver.Lawful (α σ : Type) [Scalar α] [Solver α σ] : Prop where
  outline : ∀ (d : σ) {s : System α}, s.WellFormed → s.SameOutline (solve d s).system

namespace Model

variable {α σ : Type} [Scalar α] [Solver α σ] [Solver.Lawful α σ]

theorem solve_sameOutline {m : Model α σ} (h : m.system.WellFormed) : m.system.SameOutline m.solve.1.system := by
  unfold Model.solve
  split
  · exact Solver.Lawful.outline _ h
  · exact .refl _

theorem apply_wellFormed (m : Model α σ) (e : Edit α) (h : m.system.WellFormed) : (m.apply e).system.WellFormed := by
  by_cases hq : e.isQuiet = true
  · obtain ⟨t, he, ht⟩ := m.apply_quiet hq
    rw [he]
    exact ht.wellFormed h
  cases e with
  | add d =>
    rcases m.apply_add d with ⟨-, -, he⟩ | ⟨t, id, -, hi, he⟩
    · rwa [he]
    · rw [he]
      exact h.inserted d.nodup_vars (System.inserted_of_insert hi)
  | remove id =>
    rcases m.apply_remove id with he | ⟨t, c, hi, he⟩
    · rwa [he]
    · rw [he]
      exact h.erased (System.erased_of_erase hi)
  | setEnabled id b =>
    rcases m.apply_setEnabled id b with ⟨-, -, he⟩ | ⟨-, -, he⟩
    · rwa [he]
    · rw [he]
      exact h.modify id fun c hc => ⟨hc.distinct, hc.owned, hc.penalty⟩
  | solve => exact (solve_sameOutline h).wellFormed h
  | _ => exact absurd rfl hq

/-- **Every history leads to a well-formed system.** -/
theorem replay_wellFormed [Scalar.Ordered α] (i : Nat) (solver : Option σ) (edits : List (Edit α)) :
    ((Model.new i solver : Model α σ).replay edits).system.WellFormed :=
  replay_induction (P := fun m => m.system.WellFormed) apply_wellFormed (System.empty_wellFormed i) edits

end Model

end SoftLinear
