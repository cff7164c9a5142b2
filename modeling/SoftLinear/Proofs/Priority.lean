import SoftLinear.Proofs.Noninterference

/-!
# What comes later decides nothing

The adding strategy takes up the constraints of its list one after the other.  Those that are still to come are switched
off meanwhile, and a relaxation passes over what is off, so the fate of the first ones does not depend on what follows.

* As long as the tail of a list is off, an attempt over the list is one over its front (`attempt_front`), and so is every
  step up to the end of the front (`addEach_front`);
* the loop over a list is the loop over its front and then over its tail (`addEach_append`), and the tail suspends nothing
  but members of its own (`addEach_suspended`);
* so two lists with the same front suspend the same members of it (`Model.adding_ignores_tail`), unless a tail takes up a
  member of the front for a second time (`Strategy.adding_of_repetition`).
-/

namespace SoftLinear

namespace Conflict

/-! ## A tail that is off -/

section Off

variable {α ρ : Type} [Scalar α] [Relaxation α ρ] {front back : List ConstraintId} {s t : System α} {r : Run α ρ}
  {budget : Nat}

/-- No constraint of a list is enabled. -/
def Off (ids : List ConstraintId) (s : System α) : Prop := ∀ id ∈ ids, s.flag? id ≠ some true

omit [Scalar α] in
theorem Off.of_rules (h : Off back s) (ht : s.SameRules t) : Off back t := by
  intro id hid
  rw [ht.flags]
  exact h id hid

omit [Scalar α] in
theorem Off.switch (h : Off back s) {id : ConstraintId} (hid : id ∉ back) (b : Bool) :
    Off back (s.setEnabledAll [id] b) := by
  intro other hother
  have hne : other ≠ id := fun e => hid (e ▸ hother)
  simpa [System.flag?_setEnabledAll, hne] using h other hother

omit [Scalar α] [Relaxation α ρ] in
theorem off_switch (r : Run α ρ) (h : back ⊆ front) : Off back (switch r front false).system := by
  intro id hid
  show (r.system.setEnabledAll front false).flag? id ≠ some true
  rw [System.flag?_setEnabledAll, if_pos (h hid)]
  cases r.system.flag? id <;> simp

omit [Scalar α] in
theorem attempt_front (h : Off back r.system) : attempt r (front ++ back) budget = attempt r front budget := by
  have hback : back.filter (fun id => r.system.flag? id = some true) = [] := by
    rw [List.filter_eq_nil_iff]
    intro id hid
    simpa using h id hid
  unfold attempt
  rw [System.liveIds_eq_filter, System.liveIds_eq_filter, List.filter_append, hback, List.append_nil]

/-- While the front is worked through, a tail that is off does not show. -/
theorem addEach_front [Relaxation.KeepsRules α ρ] (hoff : Off back r.system) {pending : List ConstraintId}
    (hpending : ∀ id ∈ pending, id ∉ back) (committed : Point α) (suspended : List ConstraintId) :
    addEach (front ++ back) budget pending r committed suspended =
      addEach front budget pending r committed suspended := by
  fun_induction addEach front budget pending r committed suspended with
  | case1 r committed suspended => rfl
  | case2 id rest r committed suspended r₁ outcome ha ho ih =>
    obtain ⟨hid, hrest⟩ := List.forall_mem_cons.mp hpending
    have hon : Off back (switch r [id] true).system := hoff.switch hid true
    have hrules := attempt_rules (switch r [id] true) front budget
    rw [ha] at hrules
    -- an attempt on the longer list makes the same relaxation, for the tail is off
    rw [addEach, attempt_front hon, ha]
    simp only [ho, if_true]
    exact ih (hon.of_rules hrules) hrest
  | case3 id rest r committed suspended r₁ outcome ha ho ih =>
    obtain ⟨hid, hrest⟩ := List.forall_mem_cons.mp hpending
    have hon : Off back (switch r [id] true).system := hoff.switch hid true
    have hrules := attempt_rules (switch r [id] true) front budget
    rw [ha] at hrules
    have hback : Off back (restore r₁ committed).system :=
      (hon.of_rules hrules).of_rules (System.storeValues_sameRules r₁.system committed)
    rw [addEach, attempt_front hon, ha]
    simp only [ho]
    exact ih (hback.switch hid false) hrest

end Off

/-! ## The loop over a list with a tail -/

section Loop

variable {α ρ : Type} [Scalar α] [Relaxation α ρ] (sorted : List ConstraintId) (budget : Nat)

theorem addEach_append (pending later : List ConstraintId) (r : Run α ρ) (committed : Point α)
    (suspended : List ConstraintId) :
    ∃ committed', addEach sorted budget (pending ++ later) r committed suspended =
      addEach sorted budget later (addEach sorted budget pending r committed suspended).1 committed'
        (addEach sorted budget pending r committed suspended).2 := by
  fun_induction addEach sorted budget pending r committed suspended with
  | case1 r committed suspended => exact ⟨committed, rfl⟩
  | case2 id rest r committed suspended r₁ outcome ha ho ih =>
    obtain ⟨committed', h⟩ := ih
    refine ⟨committed', ?_⟩
    rw [List.cons_append, addEach, ha]
    simp only [ho, if_true]
    exact h
  | case3 id rest r committed suspended r₁ outcome ha ho ih =>
    obtain ⟨committed', h⟩ := ih
    refine ⟨committed', ?_⟩
    rw [List.cons_append, addEach, ha]
    simp only [ho]
    exact h

theorem addEach_suspended (pending : List ConstraintId) (r : Run α ρ) (committed : Point α)
    (suspended : List ConstraintId) :
    ∃ gone ⊆ pending, (addEach sorted budget pending r committed suspended).2 = suspended ++ gone := by
  fun_induction addEach sorted budget pending r committed suspended with
  | case1 r committed suspended => exact ⟨[], List.nil_subset _, (List.append_nil _).symm⟩
  | case2 id rest r committed suspended r₁ outcome ha ho ih =>
    obtain ⟨gone, hgone, h⟩ := ih
    exact ⟨gone, List.Subset.trans hgone (List.subset_cons_self id rest), h⟩
  | case3 id rest r committed suspended r₁ outcome ha ho ih =>
    obtain ⟨gone, hgone, h⟩ := ih
    refine ⟨id :: gone, List.cons_subset_cons id hgone, ?_⟩
    rw [h, List.append_assoc, List.singleton_append]

/-- **The members of the front that are suspended** are those that the loop over the front alone suspends. -/
theorem adding_front [Relaxation.KeepsRules α ρ] (r : Run α ρ) {front back : List ConstraintId}
    (hback : ∀ id ∈ front, id ∉ back) :
    let off := switch r (front ++ back) false
    (adding r (front ++ back) budget).2.suspended.filter (fun id => id ∈ front) =
      (addEach front budget front off off.system.values []).2 := by
  intro off
  obtain ⟨committed', happend⟩ := addEach_append (front ++ back) budget front back off off.system.values []
  rw [addEach_front (off_switch r (List.subset_append_right front back)) hback] at happend
  obtain ⟨early, hearly, hfront⟩ := addEach_suspended front budget front off off.system.values []
  obtain ⟨late, hlate, htail⟩ := addEach_suspended (front ++ back) budget back
    (addEach front budget front off off.system.values []).1 committed'
    (addEach front budget front off off.system.values []).2
  have hall : (adding r (front ++ back) budget).2.suspended = early ++ late := by
    show (addEach (front ++ back) budget (front ++ back) off off.system.values []).2 = _
    -- first the front is worked through, then the tail
    rw [happend, htail, hfront, List.nil_append]
  have hkept : early.filter (fun id => id ∈ front) = early := by
    rw [List.filter_eq_self]
    intro id hid
    exact decide_eq_true (hearly hid)
  have hgone : late.filter (fun id => id ∈ front) = [] := by
    rw [List.filter_eq_nil_iff]
    intro id hid hmem
    exact hback id (of_decide_eq_true hmem) (hlate hid)
  rw [hall, List.filter_append, hkept, hgone, hfront, List.append_nil, List.nil_append]

end Loop

/-! ## Two lists with the same front -/

section Fronts

variable {α γ : Type} [Scalar α] [Generator γ] {front : List ConstraintId} {budget : Nat} {r r' : Run α (Engine α γ)}

/-- What a relaxation was prepared for does not matter to the loop, which prepares it before every attempt. -/
theorem addEach_withPrepared (hplain : r.engine.choosesPivots = false) (ids pending : List ConstraintId)
    (committed : Point α) (suspended : List ConstraintId) :
    (addEach front budget pending { r with engine := r.engine.withPrepared ids } committed suspended).2 =
      (addEach front budget pending r committed suspended).2 := by
  cases pending with
  | nil => rfl
  | cons id rest =>
    have hattempt : attempt (switch { r with engine := r.engine.withPrepared ids } [id] true) front budget =
        attempt (switch r [id] true) front budget := by
      have hon : (switch r [id] true).engine.choosesPivots = false := hplain
      have hon' : (switch { r with engine := r.engine.withPrepared ids } [id] true).engine.choosesPivots = false :=
        (Engine.choosesPivots_withPrepared r.engine ids).trans hplain
      unfold attempt
      rw [Engine.prepare_eq hon, Engine.prepare_eq hon']
      simp only [switch, Engine.withPrepared_withPrepared]
    rw [addEach, addEach, hattempt]

end Fronts

end Conflict

/-- What a relaxation can see of a constraint while it is enabled. -/
def Constraint.content {α : Type} (c : Constraint α) : Constraint α := { c.sketch with enabled := true }

namespace System

variable {α : Type} [Scalar α] {s t : System α} {front : List ConstraintId}

/-- Systems with the same contents in the places of a list are alike there once these are switched the same way. -/
theorem alike_of_contents (hs : s.WellFormed ∧ s.Linked) (ht : t.WellFormed ∧ t.Linked) (hvalues : t.values = s.values)
    (hfront : ∀ id ∈ front, (t.constraint? id).map Constraint.content = (s.constraint? id).map Constraint.content)
    {ids ids' : List ConstraintId} (hids : front ⊆ ids) (hids' : front ⊆ ids') (b : Bool) :
    Alike front (s.setEnabledAll ids b) (t.setEnabledAll ids' b) where
  values := by rw [values_setEnabledAll, values_setEnabledAll, hvalues]
  sketches id hid := by
    have hcontent := congrArg (Option.map fun c => { c with enabled := b }) (hfront id hid)
    rw [Option.map_map, Option.map_map] at hcontent
    rw [constraint?_setEnabledAll, constraint?_setEnabledAll, if_pos (hids hid), if_pos (hids' hid), Option.map_map,
      Option.map_map]
    exact hcontent
  sound := ⟨(setEnabledAll_sameOutline s ids b).wellFormed hs.1, (setEnabledAll_sameOutline s ids b).sameTerms.linked hs.2⟩
  sound' := ⟨(setEnabledAll_sameOutline t ids' b).wellFormed ht.1,
    (setEnabledAll_sameOutline t ids' b).sameTerms.linked ht.2⟩

end System

section Runs

variable {α γ : Type} [Scalar α] [Generator γ] {front back back' : List ConstraintId} {r r' : Run α (Engine α γ)}

/-- **Two lists with the same front suspend the same members of it**, whatever follows, as long as the front does not
come up again. -/
theorem Strategy.adding_front_alike (hplain : r.engine.choosesPivots = false)
    (hengine : r'.engine.withPrepared [] = r.engine.withPrepared []) (htol : r'.scope.tolerance = r.scope.tolerance)
    (hs : r.system.WellFormed ∧ r.system.Linked) (ht : r'.system.WellFormed ∧ r'.system.Linked)
    (hvalues : r'.system.values = r.system.values)
    (hfront : ∀ id ∈ front,
      (r'.system.constraint? id).map Constraint.content = (r.system.constraint? id).map Constraint.content)
    (hback : ∀ id ∈ front, id ∉ back) (hback' : ∀ id ∈ front, id ∉ back') (budget : Nat) :
    (Strategy.adding.resolve r' (front ++ back') budget).2.suspended.filter (fun id => id ∈ front) =
      (Strategy.adding.resolve r (front ++ back) budget).2.suspended.filter (fun id => id ∈ front) := by
  have hplain' : r'.engine.choosesPivots = false := by
    rw [← Engine.choosesPivots_withPrepared r'.engine [], hengine, Engine.choosesPivots_withPrepared, hplain]
  let off := Conflict.switch r (front ++ back) false
  let off' := Conflict.switch r' (front ++ back') false
  have halike : Run.Alike False front { off with engine := off.engine.withPrepared [] }
      { off' with engine := off'.engine.withPrepared [] } := by
    refine ⟨hengine, (Engine.choosesPivots_withPrepared _ _).trans hplain, ⟨htol, False.elim⟩, ?_⟩
    exact System.alike_of_contents hs ht hvalues hfront (List.subset_append_left front back)
      (List.subset_append_left front back') false
  have hloop := (Conflict.addEach_alike halike budget front halike.system.values.symm []).1
  have hoff : off.engine.choosesPivots = false := hplain
  have hoff' : off'.engine.choosesPivots = false := hplain'
  -- what the engines were prepared for before does not show in the loop
  rw [Conflict.addEach_withPrepared hoff, Conflict.addEach_withPrepared hoff'] at hloop
  show (Conflict.adding r' (front ++ back') budget).2.suspended.filter _ =
    (Conflict.adding r (front ++ back) budget).2.suspended.filter _
  rw [Conflict.adding_front budget r' hback', Conflict.adding_front budget r hback]
  exact hloop

end Runs

namespace Model

variable {α γ : Type} [Scalar α] [Generator γ]

/-- **Lower priority never decides the fate of higher priority under the adding strategy.**  Take two models after any
histories and two lists of constraints that begin in the same way: with the same identifiers, which name constraints of the
same contents in both systems.  Behind that front the lists may differ, and so may everything that the systems hold in
other places, as long as neither list takes up a constraint of the front again.  Resolved by adding over Kaczmarz or
force-directed relaxation with the same parameters, budget, tolerance and values, both lists suspend the same
constraints of the front, in the same order. -/
theorem adding_ignores_tail [Scalar.Ordered α] (i i' : Nat) (x x' : Option (AnySolver (Engine α γ)))
    (actions actions' : List (Action α (AnySolver (Engine α γ)))) (e e' : Engine α γ) (scope scope' : Scope α)
    (front back back' : List ConstraintId) (budget : Nat) (he : e.choosesPivots = false)
    (hengine : e'.withPrepared [] = e.withPrepared []) (htol : scope'.tolerance = scope.tolerance)
    (hvalues : ((Model.new i' x').perform actions').system.values = ((Model.new i x).perform actions).system.values)
    (hfront : ∀ id ∈ front, (((Model.new i' x').perform actions').system.constraint? id).map Constraint.content =
      (((Model.new i x).perform actions).system.constraint? id).map Constraint.content)
    (hback : ∀ id ∈ front, id ∉ back ∧ id ∉ back') :
    let r : Run α (Engine α γ) := ⟨e, ((Model.new i x).perform actions).system, scope⟩
    let r' : Run α (Engine α γ) := ⟨e', ((Model.new i' x').perform actions').system, scope'⟩
    (Strategy.adding.resolve r' (front ++ back') budget).2.suspended.filter (fun id => id ∈ front) =
      (Strategy.adding.resolve r (front ++ back) budget).2.suspended.filter (fun id => id ∈ front) := by
  intro r r'
  exact Strategy.adding_front_alike he hengine htol (perform_sound i x actions) (perform_sound i' x' actions') hvalues
    hfront (fun id hid => (hback id hid).1) (fun id hid => (hback id hid).2) budget

/-- Over binary64: two systems with the same two equalities, which contradict each other, and with tails that contradict
them in different ways.  Of the front the second equality is suspended, by either list. -/
theorem adding_ignores_tail_of_contradiction :
    let equality (i : Nat) (value : Float) : Action Float (AnySolver (Engine Float KeyStream)) :=
      .edit (.add ⟨[⟨1, ⟨i, 0⟩⟩], .eq, .fixed value, 1, true, none, none⟩)
    let s := ((Model.new 0 none).perform [.edit (.addVariable none), .edit .resetValues, equality 0 4, equality 0 6,
      equality 0 8]).system
    let t := ((Model.new 7 none).perform [.edit (.addVariable none), .edit .resetValues, equality 7 4, equality 7 6,
      equality 7 5, equality 7 4]).system
    let e : Engine Float KeyStream := .kaczmarz ⟨2, 1, 1, []⟩
    let front : List ConstraintId := [⟨0⟩, ⟨1⟩]
    (Strategy.adding.resolve ⟨e, s, { tolerance := 0.001 }⟩ (front ++ [⟨2⟩]) 2).2.suspended = [⟨1⟩, ⟨2⟩] ∧
      (Strategy.adding.resolve ⟨e, t, { tolerance := 0.001 }⟩ (front ++ [⟨3⟩, ⟨2⟩]) 2).2.suspended.filter
        (fun id => id ∈ front) = [⟨1⟩] := by
  intro equality s t e front
  have hsuspended : (Strategy.adding.resolve ⟨e, s, { tolerance := 0.001 }⟩ (front ++ [⟨2⟩]) 2).2.suspended =
      [⟨1⟩, ⟨2⟩] := by decide +kernel
  have h := adding_ignores_tail 0 7 none none
    [.edit (.addVariable none), .edit .resetValues, equality 0 4, equality 0 6, equality 0 8]
    [.edit (.addVariable none), .edit .resetValues, equality 7 4, equality 7 6, equality 7 5, equality 7 4] e e
    { tolerance := 0.001 } { tolerance := 0.001 } front [⟨2⟩] [⟨3⟩, ⟨2⟩] 2 rfl rfl rfl (by decide +kernel)
    (by decide +kernel) (by decide +kernel)
  refine ⟨hsuspended, h.trans ?_⟩
  rw [hsuspended]
  decide

end Model

/-- A tail that takes up a constraint of the front again: `10 x = 10` and `x + y = 2` over binary64, from zero, with one
sweep for each attempt.  After the second constraint was switched on the single sweep falls short, so the list of the two
suspends it.  The longer list `[0, 1, 0]` sweeps over the first constraint once more within each attempt; that is enough,
and nothing is suspended. -/
theorem Strategy.adding_of_repetition :
    let edits : List (Action Float (AnySolver (Engine Float KeyStream))) :=
      [.edit (.addVariable none), .edit (.addVariable none), .edit .resetValues,
        .edit (.add ⟨[⟨10, ⟨0, 0⟩⟩], .eq, .fixed 10, 1, true, none, none⟩),
        .edit (.add ⟨[⟨1, ⟨0, 0⟩⟩, ⟨1, ⟨0, 1⟩⟩], .eq, .fixed 2, 1, true, none, none⟩)]
    let r : Run Float (Engine Float KeyStream) :=
      ⟨.kaczmarz ⟨1, 1, 1, []⟩, ((Model.new 0 none).perform edits).system, { tolerance := 1 }⟩
    let front : List ConstraintId := [⟨0⟩, ⟨1⟩]
    (Strategy.adding.resolve r (front ++ []) 1).2.suspended.filter (fun id => id ∈ front) = [⟨1⟩] ∧
      (Strategy.adding.resolve r (front ++ [⟨0⟩]) 1).2.suspended.filter (fun id => id ∈ front) = [] := by
  decide +kernel

end SoftLinear
