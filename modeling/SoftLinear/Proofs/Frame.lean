import SoftLinear.Proofs.Noninterference
import SoftLinear.Proofs.Slots

/-!
# The frame of a solve

What a solve may touch.  A relaxation copies all values out, works on the copy and writes the whole copy back; a strategy
goes back to whole copies after a failure.  Nothing but the variables that the enabled constraints name changes on the way:

* a move on behalf of a constraint writes only where the constraint has a variable (`Constraint.Avoids`), also for a pivot
  that a stale entry takes from elsewhere, because such a pivot has no weight (`GaussSeidel.movePivot_avoids`);
* no step of a strategy enables anything that was not enabled when it began (`System.Framed.flags`), so the constraints that
  avoid a variable at the beginning are all that ever move the point.
-/

namespace SoftLinear

variable {α γ : Type} [Scalar α] {i : Nat}

/-! ## Moves -/

/-- Arithmetic in which a weight of zero counts as zero. -/
class Scalar.NullWeight (α : Type) [Scalar α] : Prop where
  abs_zero_le : Scalar.abs (0 : α) ≤ nearZero

instance : Scalar.NullWeight Float := ⟨by decide +kernel⟩

instance : Scalar.NullWeight Rat := ⟨by decide +kernel⟩

/-- A constraint has no variable at a position. -/
def Constraint.Avoids (c : Constraint α) (i : Nat) : Prop := ∀ t ∈ c.terms, t.var.index ≠ i

theorem Point.move_of_ne (p : Point α) {v : Variable} (h : v.index ≠ i) (amount : α) : (p.move v amount)[i]? = p[i]? := by
  unfold Point.move
  rw [Array.getElem?_setIfInBounds_ne h]

namespace Constraint

variable {c : Constraint α}

omit [Scalar α] in
theorem Avoids.of_bare {d : Constraint α} (h : d.Avoids i) (hbare : c.bare = d.bare) : c.Avoids i := by
  have hterms : c.terms = d.terms := (congrArg Constraint.terms hbare :)
  intro t ht
  exact h t (hterms ▸ ht)

theorem Avoids.shift (h : c.Avoids i) (p : Point α) (step : α) : (c.shift p step)[i]? = p[i]? := by
  have hterms : ∀ t ∈ c.terms, t.var.index ≠ i := h
  unfold Constraint.shift
  generalize c.terms = ts at hterms
  induction ts generalizing p with
  | nil => rfl
  | cons t ts ih =>
    obtain ⟨ht, hts⟩ := List.forall_mem_cons.mp hterms
    rw [List.foldl_cons, ih _ hts, Point.move_of_ne p ht]

theorem Avoids.project (h : c.Avoids i) (p : Point α) (factor : α) : (c.project p factor).point[i]? = p[i]? := by
  rcases c.project_inv p factor with ⟨-, hp⟩ | ⟨-, -, hp⟩ | ⟨-, -, hp⟩
  · rw [hp]
  · rw [hp]
  · rw [hp, h.shift]

theorem Avoids.coefficientOf (h : c.Avoids i) {v : Variable} (hv : v.index = i) : c.coefficientOf v = 0 := by
  have hnone : c.terms.find? (·.var = v) = none := by
    rw [List.find?_eq_none]
    intro t ht htv
    exact h t ht (by rw [of_decide_eq_true htv, hv])
  unfold Constraint.coefficientOf
  rw [hnone]

end Constraint

theorem GaussSeidel.movePivot_avoids [Scalar.NullWeight α] {c : Constraint α} (h : c.Avoids i) (factor : α)
    (v : Variable) (deficit : α) (p : Point α) : (movePivot factor c v deficit p).1[i]? = p[i]? := by
  rcases movePivot_inv factor c v deficit p with ⟨-, hp⟩ | ⟨-, hweight, hp⟩
  · rw [hp]
  · have hne : v.index ≠ i := by
      intro hv
      rw [h.coefficientOf hv] at hweight
      exact hweight Scalar.NullWeight.abs_zero_le
    rw [hp, Point.move_of_ne p hne]

/-! ## Sweeps -/

omit [Scalar α] in
theorem Progress.foldl_point {β : Type} {f : Progress α → β → Progress α} {l : List β}
    (hf : ∀ p, ∀ x ∈ l, (f p x).point[i]? = p.point[i]?) (p : Progress α) : (l.foldl f p).point[i]? = p.point[i]? := by
  induction l generalizing p with
  | nil => rfl
  | cons x l ih =>
    rw [List.foldl_cons, ih fun q y hy => hf q y (List.mem_cons_of_mem x hy)]
    exact hf p x List.mem_cons_self

theorem Course.point_state {c : Course α} (h : ∀ p, (c.move p).point[i]? = p.point[i]?) (n : Nat) :
    (c.state n).point[i]? = c.base.point[i]? := by
  obtain ⟨k, -, he⟩ := Progress.iterate_halts (c.sweep n) c.settled n c.base
  rw [state, he]
  clear he
  induction k with
  | zero => rfl
  | succ k ih =>
    rw [Function.iterate_succ_apply']
    exact (h _).trans ih

theorem Kaczmarz.moves_avoids (k : Kaczmarz α) {list : List (ConstraintId × Constraint α)}
    (h : ∀ x ∈ list, x.2.Avoids i) (p : Progress α) : (k.moves list p).point[i]? = p.point[i]? := by
  have hvisit := Progress.foldl_point (f := k.visit) (fun p x hx => (h x hx).project p.point _) p
  have henforce : ∀ q, (k.enforceHard (list.map (·.2)) q).point[i]? = q.point[i]? := by
    intro q
    unfold Kaczmarz.enforceHard
    split
    · refine Progress.foldl_point (fun p c hc => ?_) q
      obtain ⟨x, hx, rfl⟩ := List.mem_map.mp (List.mem_filter.mp hc).1
      exact (h x hx).project p.point _
    · rfl
  exact (henforce _).trans hvisit

theorem GaussSeidel.moves_avoids [Scalar.NullWeight α] (factor : α) (cs : List (Constraint α))
    {entries : List (PivotEntry × Constraint α)} (h : ∀ x ∈ entries, x.2.Avoids i) (p : Progress α) :
    (moves factor cs entries p).point[i]? = p.point[i]? := by
  have hvisit := Progress.foldl_point (f := visit factor) (fun p x hx => movePivot_avoids (h x hx) factor _ _ p.point) p
  have henforce : ∀ q, ((entries.filter (·.2.isHard)).foldl (enforce factor) q).point[i]? = q.point[i]? :=
    fun q => Progress.foldl_point
      (fun p x hx => movePivot_avoids (h x (List.mem_filter.mp hx).1) factor _ _ p.point) q
  unfold moves
  simp only
  split
  · exact (henforce _).trans hvisit
  · exact hvisit

namespace ForceDirected

theorem pullVariable_avoids (p : Progress α) {x : Variable × List (Spring α)} (h : x.1.index ≠ i) :
    (pullVariable p x).point[i]? = p.point[i]? := by
  unfold pullVariable
  simp only
  split
  · exact Point.move_of_ne p.point h _
  · rfl

theorem enforceHard_avoids {hard : List (Constraint α)} (h : ∀ c ∈ hard, c.Avoids i) (n : Nat) (p : Progress α) :
    (enforceHard hard n p).point[i]? = p.point[i]? := by
  have hpass : ∀ (cs : List (Constraint α)) (acc : Progress α × Bool), (∀ c ∈ cs, c.Avoids i) →
      (cs.foldl enforce acc).1.point[i]? = acc.1.point[i]? := by
    intro cs
    induction cs with
    | nil => exact fun _ _ => rfl
    | cons c cs ih =>
      intro acc hcs
      obtain ⟨hc, hcs⟩ := List.forall_mem_cons.mp hcs
      exact (ih _ hcs).trans (hc.project acc.1.point 1)
  induction n generalizing p with
  | zero => rfl
  | succ n ih =>
    unfold enforceHard
    simp only
    split
    · exact (ih _).trans (hpass hard (p, false) h)
    · exact hpass hard (p, false) h

theorem moves_avoids (cooling : α) (hardSweeps : Nat) {cs : List (Constraint α)} (h : ∀ c ∈ cs, c.Avoids i)
    (springs : Variable → List (Spring α)) (p : Progress α) :
    (moves cooling hardSweeps cs ((participants cs).map fun v => (v, springs v)) p).point[i]? = p.point[i]? := by
  refine (enforceHard_avoids (fun c hc => h c (List.mem_filter.mp hc).1) hardSweeps _).trans ?_
  refine Progress.foldl_point (fun q x hx => ?_) p
  obtain ⟨v, hv, rfl⟩ := List.mem_map.mp hx
  obtain ⟨c, hc, t, ht, rfl⟩ := mem_participants hv
  exact pullVariable_avoids q (h c hc t ht)

end ForceDirected

/-- **What a relaxation leaves alone**: the value at a position where no enabled constraint has a variable. -/
theorem Engine.relax_avoids [Generator γ] [Scalar.NullWeight α] {r : Run α (Engine α γ)}
    (h : ∀ id c, r.system.constraint? id = some c → c.enabled = true → c.Avoids i) (n : Nat) :
    (Relaxation.relax r n).1.system.values[i]? = r.system.values[i]? := by
  have hlive : ∀ ids, ∀ x ∈ r.system.live ids, x.2.Avoids i := by
    intro ids x hx
    obtain ⟨-, hc, he⟩ := System.mem_live.mp hx
    exact h x.1 x.2 hc he
  have hactive : ∀ c ∈ active r, c.Avoids i := by
    intro c hc
    obtain ⟨x, hx, rfl⟩ := List.mem_map.mp hc
    exact hlive _ x hx
  rw [relax_values, Course.point_state, (course_base r).1]
  intro p
  obtain ⟨e, s, scope⟩ := r
  cases e with
  | kaczmarz k => exact k.moves_avoids (hlive k.prepared) p
  | gaussSeidel g =>
    refine GaussSeidel.moves_avoids g.factor _ (fun x hx => ?_) p
    obtain ⟨hx, he⟩ := List.mem_filter.mp hx
    obtain ⟨e, -, hmap⟩ := List.mem_filterMap.mp hx
    obtain ⟨c, hc, rfl⟩ := Option.map_eq_some_iff.mp hmap
    exact h e.constraint c hc he
  | forceDirected f => exact ForceDirected.moves_avoids f.cooling f.hardSweeps hactive _ p

/-! ## Steps of a strategy -/

namespace System

def pivot? (s : System α) (id : ConstraintId) : Option (Option Nat) := (s.constraint? id).map (·.pivot)

omit [Scalar α] in
theorem pivot?_setEnabledAll (s : System α) (ids : List ConstraintId) (b : Bool) (id : ConstraintId) :
    (s.setEnabledAll ids b).pivot? id = s.pivot? id := by
  rw [pivot?, pivot?, constraint?_setEnabledAll]
  split
  · rw [Option.map_map]
    rfl
  · rfl

theorem pivot?_seed (s : System α) (reset : Bool) (id : ConstraintId) : (s.seed reset).pivot? id = s.pivot? id := by
  unfold seed
  split <;> rfl

/-- A later state of a system in which nothing is enabled that was not enabled before, and a position has its value. -/
structure Framed (base : System α) (i : Nat) (s : System α) : Prop where
  outline : base.SameOutline s
  flags : ∀ id, s.flag? id = some true → base.flag? id = some true
  value : s.values[i]? = base.values[i]?

namespace Framed

variable {base s t : System α}

omit [Scalar α] in
theorem of_rules (h : Framed base i s) (ht : s.SameRules t) (hvalue : t.values[i]? = s.values[i]?) : Framed base i t where
  outline := h.outline.trans ht.toSameOutline
  flags id hid := h.flags id ((ht.flags id).symm.trans hid)
  value := hvalue.trans h.value

omit [Scalar α] in
theorem switch (h : Framed base i s) {ids : List ConstraintId} (hids : ∀ id ∈ ids, base.flag? id = some true)
    (b : Bool) : Framed base i (s.setEnabledAll ids b) where
  outline := h.outline.trans (setEnabledAll_sameOutline s ids b)
  flags id hid := by
    rw [flag?_setEnabledAll] at hid
    split at hid
    · rename_i hmem
      exact hids id hmem
    · exact h.flags id hid
  value := by rw [values_setEnabledAll, h.value]

omit [Scalar α] in
theorem restore (h : Framed base i s) {p : Point α} (hp : p[i]? = base.values[i]?) : Framed base i (s.storeValues p) where
  outline := h.outline.trans (storeValues_sameRules s p).toSameOutline
  flags := h.flags
  value := by
    rw [values_storeValues_eq, Array.getElem?_mapIdx, h.value, hp]
    cases base.values[i]? <;> rfl

omit [Scalar α] in
/-- The constraints that are enabled later avoid what those avoid that were enabled before. -/
theorem avoids (h : Framed base i s)
    (hbase : ∀ id c, base.constraint? id = some c → c.enabled = true → c.Avoids i) :
    ∀ id c, s.constraint? id = some c → c.enabled = true → c.Avoids i := by
  intro id c hc he
  obtain ⟨d, hd, hbare⟩ := h.outline.exists_constraint? hc
  have hflag : base.flag? id = some true := h.flags id (by rw [flag?, hc, Option.map_some, he])
  rw [flag?, hd, Option.map_some, Option.some.injEq] at hflag
  exact (hbase id d hd hflag).of_bare hbare

end Framed

end System

namespace Engine

variable [Generator γ]

theorem values_prepare (r : Run α (Engine α γ)) (ids : List ConstraintId) :
    (Relaxation.prepare r ids).system.values = r.system.values := by
  obtain ⟨e, s, scope⟩ := r
  cases e with
  | kaczmarz k => rfl
  | gaussSeidel g =>
    show (PivotEntry.apply _ s).values = s.values
    unfold PivotEntry.apply
    induction List.filter (fun e : PivotEntry => !e.duplicate) _ generalizing s with
    | nil => rfl
    | cons e es ih => exact (ih _).trans (s.values_modify e.constraint _)
  | forceDirected f => rfl

theorem framed_prepare {base : System α} {r : Run α (Engine α γ)} (h : base.Framed i r.system) (ids : List ConstraintId) :
    base.Framed i (Relaxation.prepare r ids).system :=
  h.of_rules (prepare_rules r ids) (by rw [values_prepare])

variable [Scalar.NullWeight α] {base : System α}

theorem framed_relax (hbase : ∀ id c, base.constraint? id = some c → c.enabled = true → c.Avoids i)
    {r : Run α (Engine α γ)} (h : base.Framed i r.system) (n : Nat) : base.Framed i (Relaxation.relax r n).1.system :=
  h.of_rules (relax_rules r n) (relax_avoids (h.avoids hbase) n)

/-- No step of a strategy reaches a position that the constraints enabled at its beginning avoid. -/
theorem framed_steps (hbase : ∀ id c, base.constraint? id = some c → c.enabled = true → c.Avoids i)
    {sorted : List ConstraintId} (hsorted : ∀ id ∈ sorted, base.flag? id = some true) :
    Conflict.StepInvariant (Engine α γ) sorted (fun _ s => base.Framed i s) (fun p => p[i]? = base.values[i]?) where
  switch _ _ _ b hids h := h.switch (fun id hid => hsorted id (hids hid)) b
  restore _ _ _ hp h := h.restore hp
  commit _ _ h := h.value
  attempt _ budget h := framed_relax hbase (framed_prepare h _) budget

omit [Scalar.NullWeight α] in
theorem plain_steps (base : System α) (sorted : List ConstraintId) :
    Conflict.StepInvariant (Engine α γ) sorted
      (fun e s => e.choosesPivots = false ∧ ∀ id, s.pivot? id = base.pivot? id) (fun _ => True) where
  switch e s ids b _ h := by
    refine ⟨h.1, fun id => ?_⟩
    rw [System.pivot?_setEnabledAll, h.2]
  restore _ _ _ _ h := h
  commit _ _ _ := trivial
  attempt r budget h := by
    unfold Conflict.attempt
    rw [prepare_eq h.1, engine_relax (by rw [choosesPivots_withPrepared]; exact h.1), (relax_run _ budget).1]
    refine ⟨?_, h.2⟩
    rw [choosesPivots_withPrepared]
    exact h.1

end Engine

/-! ## Solvers -/

theorem System.WellFormed.mem_enabledConstraints {s : System α} (hs : s.WellFormed) {id : ConstraintId}
    {c : Constraint α} (hc : s.constraint? id = some c) (he : c.enabled = true) : c ∈ s.enabledConstraints := by
  have hlisted : id ∈ s.order := (hs.listed id).mpr (by rw [hc]; rfl)
  exact List.mem_map.mpr ⟨(id, c), System.mem_live.mpr ⟨hlisted, hc, he⟩, rfl⟩

omit [Scalar α] in
theorem System.value?_eq (s : System α) (v : Variable) :
    s.value? v = if s.owns v then s.values[v.index]? else none := by
  unfold System.value? System.slot? System.values
  split
  · rw [Array.getElem?_map]
  · rfl

/-- A variable that no enabled constraint names is avoided by all of them: within a system the position tells the
variable. -/
theorem System.WellFormed.avoids {s : System α} (hs : s.WellFormed) {v : Variable} (howner : v.owner = s.id)
    (hfree : ∀ c ∈ s.enabledConstraints, v ∉ c.terms.map (·.var)) :
    ∀ id c, s.constraint? id = some c → c.enabled = true → c.Avoids v.index := by
  intro id c hc he t ht hindex
  have howned := (hs.fits hc).owned t ht
  simp only [System.owns, Bool.and_eq_true, decide_eq_true_eq] at howned
  have hvar : t.var = v := Variable.eq_of (howned.1.trans howner.symm) hindex
  exact hfree c (hs.mem_enabledConstraints hc he) (List.mem_map.mpr ⟨t, ht, hvar⟩)


/-- What the seeding of a solve makes of a value: zero if it is undefined, and always with reset. -/
def Scalar.seeded (reset : Bool) (a : α) : α := if reset || Scalar.isNaN a then 0 else a

namespace AnySolver

section Parts

variable {ρ : Type}

omit [Scalar α] in
/-- Whether a solve starts from zero. -/
def reset : AnySolver ρ → Bool
  | direct d => d.reset
  | resolving d => d.reset

omit [Scalar α] in
/-- The relaxation that a solve runs. -/
def engine : AnySolver ρ → ρ
  | direct d => d.engine
  | resolving d => d.engine

/-- The system that a solve works on: seeded, and with the solver's own suspensions lifted. -/
def lift (x : AnySolver ρ) (s : System α) : System α :=
  match x with
  | direct d => s.seed d.reset
  | resolving d => d.lift s

theorem lift_sameOutline (x : AnySolver ρ) (s : System α) : s.SameOutline (x.lift s) := by
  cases x with
  | direct d => exact (s.seed_sameRules d.reset).toSameOutline
  | resolving d => exact d.lift_sameOutline s

theorem values_lift (x : AnySolver ρ) (s : System α) :
    (x.lift s).values = s.values.map (Scalar.seeded x.reset) := by
  have hseed : (s.seed x.reset).values = s.values.map (Scalar.seeded x.reset) := by
    unfold System.seed Scalar.seeded
    cases x.reset with
    | true => simp [System.resetValues, System.values_mapValues]
    | false => simp [System.fillUnset, System.values_mapValues]
  cases x with
  | direct d => exact hseed
  | resolving d => exact (System.values_setEnabledAll _ _ _).trans hseed

end Parts

variable [Generator γ] {s : System α}

theorem solve_framed [Scalar.NullWeight α] (x : AnySolver (Engine α γ)) (hs : s.WellFormed)
    (h : ∀ id c, (x.lift s).constraint? id = some c → c.enabled = true → c.Avoids i) :
    (x.lift s).Framed i (Solver.solve x s).system := by
  have hstart : (x.lift s).Framed i (x.lift s) := ⟨.refl _, fun _ hid => hid, rfl⟩
  cases x with
  | direct d =>
    have hready : (s.seed d.reset).Framed i (d.task s).system := by
      unfold DirectSolver.task DirectSolver.ready
      simp only
      split
      · exact hstart
      · exact Engine.framed_prepare hstart _
    exact Engine.framed_relax h hready _
  | resolving d =>
    refine Conflict.StepInvariant.resolve (Engine.framed_steps h ?_) d.strategy hstart
    intro id hid
    exact (ResolvingSolver.mem_agenda hs).mp hid

/-- **What a solve does to a variable that it does not work on**: it seeds its value. -/
theorem value?_solve [Scalar.NullWeight α] (x : AnySolver (Engine α γ)) (hs : s.WellFormed) {v : Variable} {a : α}
    (hv : s.value? v = some a) (hfree : ∀ c ∈ (x.lift s).enabledConstraints, v ∉ c.terms.map (·.var)) :
    (Solver.solve x s).system.value? v = some (Scalar.seeded x.reset a) := by
  have hlift := x.lift_sameOutline s
  have houtline : s.SameOutline (Solver.solve x s).system := Solver.Lawful.outline x hs
  rw [System.value?_eq] at hv ⊢
  split at hv
  · rename_i howns
    have howner : v.owner = (x.lift s).id := by
      simp only [System.owns, Bool.and_eq_true, decide_eq_true_eq] at howns
      rw [hlift.id, howns.1]
    have hframed := x.solve_framed hs ((hlift.wellFormed hs).avoids howner hfree)
    have howns' : (Solver.solve x s).system.owns v = true := by
      simpa only [System.owns, houtline.id, houtline.slots_size] using howns
    rw [if_pos howns', hframed.value, x.values_lift, Array.getElem?_map, hv]
    rfl
  · cases hv

theorem solve_pivots (x : AnySolver (Engine α γ)) (s : System α) (h : x.engine.choosesPivots = false)
    (id : ConstraintId) : (Solver.solve x s).system.pivot? id = s.pivot? id := by
  cases x with
  | direct d =>
    have htask : (d.task s).system = s.seed d.reset := by
      unfold DirectSolver.task DirectSolver.ready
      simp only
      split
      · rfl
      · rw [Engine.prepare_eq h]
    have hrun := (Engine.relax_run (d.task s) (Relaxation.budget (d.task s).engine)).1
    rw [htask] at hrun
    exact (congrArg (System.pivot? · id) hrun).trans (s.pivot?_seed d.reset id)
  | resolving d =>
    have hkept : (Solver.solve (resolving d) s).system.pivot? id = (d.lift s).pivot? id :=
      (Conflict.StepInvariant.resolve (Engine.plain_steps (d.lift s) (d.agenda s)) d.strategy ⟨h, fun _ => rfl⟩).2 id
    refine hkept.trans ?_
    unfold ResolvingSolver.lift
    rw [System.pivot?_setEnabledAll, System.pivot?_seed]

theorem solve_flags (x : AnySolver (Engine α γ)) (hs : s.WellFormed) {id : ConstraintId}
    (h : (Solver.solve x s).system.flag? id ≠ s.flag? id) : ∃ d, x = resolving d ∧ id ∈ d.agenda s := by
  cases x with
  | direct d =>
    refine absurd ?_ h
    exact ((d.task_rules s).trans (Engine.relax_rules (d.task s) _)).flags id
  | resolving d =>
    refine ⟨d, rfl, ?_⟩
    by_contra hid
    refine h ?_
    have hflags : (d.resolution s).1.system.flag? id = _ := (d.resolution_marked hs).1.flags id
    rw [if_neg hid, ResolvingSolver.flag?_lift] at hflags
    refine hflags.trans ?_
    rw [ResolvingSolver.mem_agenda hs, ResolvingSolver.flag?_lift] at hid
    -- a suspension that is lifted stands on the agenda, unless its constraint is gone
    split
    · rename_i hmem
      rw [if_pos hmem] at hid
      cases hflag : s.flag? id with
      | none => rfl
      | some b => simp [hflag] at hid
    · rfl

end AnySolver

namespace Model

variable [Generator γ]

/-- **The frame of a solve.**  A solve by any solver, after any history, leaves the outline of the system as it is: what its
constraints say and how they are called, their order, the variables with their names and the constraints noted at them,
the attached variables and the tolerance.  Without a solver nothing changes at all.  With one:

* a variable that no constraint names which is enabled once the solver has lifted its own suspensions keeps its value, but
  for the seeding: an undefined value becomes zero, and with reset every value does;
* a flag changes only if a strategy resolves conflicts and the constraint is on its agenda;
* a pivot changes only if the relaxation chooses pivots. -/
theorem solve_frame [Scalar.Ordered α] [Scalar.NullWeight α] (i : Nat) (x₀ : Option (AnySolver (Engine α γ)))
    (actions : List (Action α (AnySolver (Engine α γ)))) :
    let m := (Model.new i x₀).perform actions
    let s := m.system
    let t := m.solve.1.system
    s.SameOutline t ∧ (m.solver = none → t = s) ∧
    ∀ x, m.solver = some x →
      (∀ v a, s.value? v = some a →
        (∀ c ∈ (x.lift s).enabledConstraints, v ∉ c.terms.map (·.var)) →
        t.value? v = some (Scalar.seeded x.reset a)) ∧
      (∀ id, t.flag? id ≠ s.flag? id → ∃ d, x = .resolving d ∧ id ∈ d.agenda s) ∧
      ∀ id, t.pivot? id ≠ s.pivot? id → x.engine.choosesPivots = true := by
  intro m s t
  have hs : s.WellFormed := (perform_sound i x₀ actions).1
  have houtline : s.SameOutline t := solve_sameOutline hs
  refine ⟨houtline, ?_, ?_⟩
  · intro hnone
    show m.solve.1.system = m.system
    unfold Model.solve
    rw [hnone]
  intro x hx
  have hsolve : t = (Solver.solve x s).system := by
    show m.solve.1.system = _
    rw [solve_of_solver hx]
  refine ⟨?_, ?_, ?_⟩
  · intro v a hv hfree
    rw [hsolve]
    exact x.value?_solve hs hv hfree
  · intro id hid
    rw [hsolve] at hid
    exact x.solve_flags hs hid
  · intro id hid
    by_contra hplain
    rw [hsolve] at hid
    exact hid (x.solve_pivots s (Bool.eq_false_iff.mpr hplain) id)

/-- Over binary64, a search suspends the second of two equalities for one variable and moves pivots for the first.  A
variable that only a disabled constraint names keeps its value, an unset one is seeded, and the pivot and the flag that
change are those of the two equalities. -/
theorem solve_frame_of_contradiction :
    let x : AnySolver (Engine Float KeyStream) :=
      .resolving (.new .binarySearch (.gaussSeidel ⟨.deterministic, 2, 1, [], [], none⟩) false none)
    let actions : List (Action Float (AnySolver (Engine Float KeyStream))) :=
      [.edit (.addVariable none), .edit (.addVariable none), .edit (.addVariable none), .edit (.setValue ⟨0, 1⟩ 7),
        .edit (.add ⟨[⟨1, ⟨0, 0⟩⟩], .eq, .fixed 4, 1, true, none, none⟩),
        .edit (.add ⟨[⟨1, ⟨0, 0⟩⟩], .eq, .fixed 6, 0.5, true, none, none⟩),
        .edit (.add ⟨[⟨1, ⟨0, 1⟩⟩, ⟨1, ⟨0, 2⟩⟩], .eq, .fixed 5, 1, false, none, none⟩), .install x]
    let m := (Model.new 0 none).perform actions
    let t := m.solve.1.system
    t.flag? ⟨1⟩ ≠ m.system.flag? ⟨1⟩ ∧ t.pivot? ⟨0⟩ ≠ m.system.pivot? ⟨0⟩ ∧ t.flag? ⟨2⟩ = m.system.flag? ⟨2⟩ ∧
      t.value? ⟨0, 1⟩ = some 7 ∧ t.value? ⟨0, 2⟩ = some 0 := by
  intro x actions m t
  obtain ⟨-, -, h⟩ := solve_frame (α := Float) (γ := KeyStream) 0 none actions
  obtain ⟨hvalue, hflag, -⟩ := h x rfl
  refine ⟨by decide +kernel, by decide +kernel, ?_, ?_, ?_⟩
  · by_contra hchanged
    obtain ⟨d, hd, hid⟩ := hflag ⟨2⟩ hchanged
    obtain rfl := AnySolver.resolving.inj hd
    exact absurd hid (by decide +kernel)
  · exact hvalue ⟨0, 1⟩ 7 (by decide +kernel) (by decide +kernel)
  · exact hvalue ⟨0, 2⟩ Scalar.unset (by decide +kernel) (by decide +kernel)

end Model

end SoftLinear
