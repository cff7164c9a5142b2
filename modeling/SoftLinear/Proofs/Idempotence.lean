import SoftLinear.Proofs.Foresight
import SoftLinear.Proofs.Noninterference

/-!
# Solving again

A solve with conflict resolution lifts the suspensions of the one before and decides everything anew, but from the values
that the one before has left.  Whether it repeats the one before is decided by what it finds there.

* Adding and binary search come to a point where all that they keep holds.  There an attempt without a suspended
  constraint makes no sweep, so only the attempts with one can change anything: the second solve repeats the first exactly
  when they all fail again.  They do if each suspended constraint contradicts what is kept before it.
* Removing moves the values in attempts that fail, and never takes them back.  It repeats the first solve if its first
  attempt ends as the first attempt of the first solve has ended, or if nothing had to be suspended.
-/

namespace SoftLinear

variable {α γ : Type} [Scalar α]

/-! ## Attempts at rest -/

section Rest

variable [Generator γ] [Scalar.Lawful α] {r : Run α (Engine α γ)}

theorem Engine.relax_rest (h : (Summary.measure (active r) r.system.values).max < r.scope.tolerance) (n : Nat) :
    (Relaxation.relax r n).2.status = .optimal ∧ (Relaxation.relax r n).1.system.values = r.system.values := by
  have hstate := state_of_met (Scalar.Lawful.not_le_of_lt h) n
  refine ⟨?_, ?_⟩
  · rw [(relax_run r n).2.1, hstate, Progress.classify, base_summary, (course_base r).2.1, if_pos h]
  · rw [relax_values, hstate, (course_base r).1]

theorem Conflict.attempt_rest (hplain : r.engine.choosesPivots = false) {sorted : List ConstraintId}
    (h : (Summary.measure ((r.system.live sorted).map (·.2)) r.system.values).max < r.scope.tolerance) (budget : Nat) :
    (attempt r sorted budget).2.status = .optimal ∧ (attempt r sorted budget).1.system.values = r.system.values := by
  unfold attempt
  rw [Engine.prepare_eq hplain]
  apply Engine.relax_rest
  rw [Engine.active, Engine.prepared_withPrepared]
  dsimp only
  rw [System.live_liveIds]
  exact h

omit [Scalar.Lawful α] in
theorem Conflict.engine_attempt (hplain : r.engine.choosesPivots = false) (sorted : List ConstraintId) (budget : Nat) :
    (attempt r sorted budget).1.engine = r.engine.withPrepared (r.system.liveIds sorted) := by
  unfold attempt
  rw [Engine.prepare_eq hplain, Engine.engine_relax (by rwa [Engine.choosesPivots_withPrepared])]

end Rest

namespace Conflict

/-! ## What was accepted -/

section Accepted

variable {ρ : Type} [Relaxation α ρ] [Relaxation.Lawful α ρ] {base : System α} {tol : α} {budget : Nat}
  {sorted : List ConstraintId}

/-- What was enabled in an attempt that ended optimally is dealt with and not suspended. -/
theorem accepted_stepsKeep (hn : sorted.Nodup) :
    StepsKeep base tol sorted budget fun done (e : Recorder α ρ) _ suspended =>
      ∀ t ∈ e.trials, t.status = .optimal → ∀ id ∈ t.members, id ∈ done ∧ id ∉ suspended where
  accept done window pending r r₁ outcome committed suspended hsplit hs ha h _ t ht ho id hid := by
    obtain ⟨-, -, -, htrials, -⟩ := hs.tried hsplit hn ha
    rw [htrials] at ht
    rcases List.mem_append.mp ht with ht | ht
    · obtain ⟨hdone, hfree⟩ := h t ht ho id hid
      exact ⟨List.mem_append_left _ hdone, hfree⟩
    · obtain rfl := List.mem_singleton.mp ht
      -- a member was kept before, or it is in the window that was just accepted
      rcases List.mem_append.mp hid with hid | hid
      · obtain ⟨hdone, hfree⟩ := List.mem_filter.mp hid
        exact ⟨List.mem_append_left _ hdone, by simpa using hfree⟩
      · refine ⟨List.mem_append_right _ hid, fun hsuspended => ?_⟩
        exact not_mem_of_split hsplit hn id hid (hs.sublist.subset hsuspended)
  reject done window pending r r₁ outcome committed suspended hsplit hs ha h hfailed t ht ho id hid := by
    obtain ⟨-, -, -, htrials, -⟩ := hs.tried hsplit hn ha
    rw [htrials] at ht
    rcases List.mem_append.mp ht with ht | ht
    · exact h t ht ho id hid
    · obtain rfl := List.mem_singleton.mp ht
      exact absurd (Status.isOptimal_iff.mpr ho) hfailed
  suspend done c pending r r₁ outcome committed suspended hsplit hs ha h hfailed t ht ho id hid := by
    obtain ⟨-, -, -, htrials, -⟩ := hs.tried hsplit hn ha
    rw [htrials] at ht
    rcases List.mem_append.mp ht with ht | ht
    · obtain ⟨hdone, hfree⟩ := h t ht ho id hid
      have hne : id ≠ c := by
        rintro rfl
        exact not_mem_of_split hsplit hn id List.mem_cons_self hdone
      simp [hdone, hfree, hne]
    · obtain rfl := List.mem_singleton.mp ht
      exact absurd (Status.isOptimal_iff.mpr ho) hfailed

end Accepted

/-! ## Searches from a point where what is kept holds -/

section Rested

variable {base : System α} {tol : α} {budget : Nat} {sorted conflicts : List ConstraintId} {v : Point α}
  {told : Trial α → Prop}

/-- At a point the constraints of a list that are no conflicts hold, as far as their residuals are defined. -/
def Rested (base : System α) (tol : α) (sorted conflicts : List ConstraintId) (v : Point α) : Prop :=
  ∀ id ∈ sorted, id ∉ conflicts → ∀ c, base.constraint? id = some c → Scalar.isNaN (c.error v) = false →
    c.isSatisfied v tol = true

variable [Scalar.Lawful α]

theorem Searched.rested {ρ : Type} [Relaxation α ρ] {r : Run α (Recorder α ρ)} {suspended : List ConstraintId}
    (h : Searched base tol sorted sorted r v suspended) (htol : 0 < tol) : Rested base tol sorted suspended v := by
  intro id hid hfree c hc hdefined
  obtain ⟨c', hc', hbare⟩ := h.marked.outline.symm.exists_constraint? hc
  have herror : c.error v = c'.error v := (congrArg (fun y : Constraint α => y.error v) hbare :)
  have hflag : r.system.flag? id = some true := by
    rw [h.marked.flags, if_pos hid]
    simp [hid, hfree]
  have henabled : c'.enabled = true := by simpa [System.flag?, hc'] using hflag
  have hlive : c' ∈ (r.system.live sorted).map (·.2) :=
    List.mem_map.mpr ⟨(id, c'), System.mem_live.mpr ⟨hid, hc', henabled⟩, rfl⟩
  rw [Constraint.isSatisfied, herror]
  exact (Summary.measure_lt_iff htol).mp h.met c' hlive (herror ▸ hdefined)

omit [Scalar.Lawful α] in
theorem Contradicted.of_outline {t : System α} (h : Contradicted base tol sorted conflicts) (ht : base.SameOutline t) :
    Contradicted t tol sorted conflicts := by
  intro before id after hsplit hid p hp
  rw [ht.slots_size] at hp
  obtain ⟨other, hother, c, hc, hdefined, hmissed⟩ := h before id after hsplit hid p hp
  obtain ⟨c', hc', hbare⟩ := ht.symm.exists_constraint? hc
  have herror : c'.error p = c.error p := (congrArg (fun y : Constraint α => y.error p) hbare.symm :)
  refine ⟨other, hother, c', hc', herror ▸ hdefined, ?_⟩
  rw [Constraint.isSatisfied, herror]
  exact hmissed

omit [Scalar.Lawful α] in
theorem Rested.of_outline {t : System α} (h : Rested base tol sorted conflicts v) (ht : base.SameOutline t) :
    Rested t tol sorted conflicts v := by
  intro id hid hfree c hc hdefined
  obtain ⟨c', hc', hbare⟩ := ht.exists_constraint? hc
  have herror : c.error v = c'.error v := (congrArg (fun y : Constraint α => y.error v) hbare :)
  rw [Constraint.isSatisfied, herror]
  exact h id hid hfree c' hc' (herror ▸ hdefined)

variable [Generator γ]

theorem Rested.foresees (h : Rested base tol sorted conflicts v) (htol : 0 < tol) (hn : sorted.Nodup)
    (hrefuses : Refuses (Engine α γ) base tol sorted budget conflicts told) :
    Foresees base tol sorted budget conflicts told (fun e : Engine α γ => e.choosesPivots = false) (· = v) where
  keeps r hplain := by rw [engine_attempt hplain, Engine.choosesPivots_withPrepared, hplain]
  refuses := hrefuses
  accepts done window pending r r₁ outcome committed hsplit hs hplain hv ha hclean := by
    have hvalues : (switch r window true).system.values = v :=
      (r.system.values_setEnabledAll window true).trans (hs.values.trans hv)
    obtain ⟨hmarked, -⟩ := hs.tried hsplit hn ha
    have hrules := (attempt_spec ha).1
    have hrest : (Summary.measure (((switch r window true).system.live sorted).map (·.2))
        (switch r window true).system.values).max < (switch r window true).scope.tolerance := by
      rw [hvalues, show (switch r window true).scope.tolerance = tol from hs.tolerance,
        ← Summary.measure_of_rules hrules, Summary.measure_lt_iff htol]
      intro c hc hdefined
      obtain ⟨x, hx, rfl⟩ := List.mem_map.mp hc
      -- what is enabled was kept or is in the window, and neither has a conflict
      have hfree : x.1 ∉ conflicts := by
        have hlive : x.1 ∈ r₁.system.liveIds sorted := List.mem_map.mpr ⟨x, hx, rfl⟩
        rw [hmarked.liveIds_conflicts hsplit hn] at hlive
        rcases List.mem_append.mp hlive with hdone | hwindow
        · simpa using (List.mem_filter.mp hdone).2
        · exact hclean _ hwindow
      obtain ⟨hlisted, hx', -⟩ := System.mem_live.mp hx
      obtain ⟨c, hc, hbare⟩ := hmarked.outline.exists_constraint? hx'
      have herror : x.2.error v = c.error v := (congrArg (fun y : Constraint α => y.error v) hbare :)
      rw [Constraint.isSatisfied, herror]
      exact h x.1 hlisted hfree c hc (herror ▸ hdefined)
    have hattempt := attempt_rest (r := (switch r window true).map Recorder.engine) hplain hrest budget
    rw [attempt_erase ha] at hattempt
    exact ⟨Status.isOptimal_iff.mpr hattempt.1, hattempt.2.trans hvalues⟩

omit [Scalar.Lawful α] in
theorem refuses_of_record (hn : sorted.Nodup) : Refuses (Engine α γ) base tol sorted budget conflicts fun t =>
    (∃ id ∈ conflicts, id ∈ t.members) → t.status ≠ .optimal := by
  intro done window pending r r₁ outcome committed hsplit hs ha htold hwindow ho
  obtain ⟨-, -, -, htrials, -⟩ := hs.tried hsplit hn ha
  obtain ⟨id, hid, hconflict⟩ : ∃ id ∈ window, id ∈ conflicts := by simpa using hwindow
  have hlast := htold _ (htrials ▸ List.mem_append_right _ (List.mem_singleton.mpr rfl))
  exact hlast ⟨id, hconflict, List.mem_append_right _ hid⟩ (Status.isOptimal_iff.mp ho)

end Rested

/-! ## Removing from a common first attempt -/

section Removing

variable [Generator γ] {counted : Prop} {sorted : List ConstraintId} {budget : Nat} {r r' : Run α (Engine α γ)}

/-- Removing does the same in two runs whose first attempts end alike. -/
theorem removing_alike_of_attempt (h : Run.Alike counted sorted (attempt r sorted budget).1 (attempt r' sorted budget).1)
    (hstatus : (attempt r' sorted budget).2.status = (attempt r sorted budget).2.status)
    (hresiduals : (attempt r' sorted budget).2.residuals = (attempt r sorted budget).2.residuals) :
    (removing r' sorted budget).2 = (removing r sorted budget).2 ∧
      Run.Alike counted sorted (removing r sorted budget).1 (removing r' sorted budget).1 := by
  have hasks : asks? sorted (attempt r' sorted budget) = asks? sorted (attempt r sorted budget) := by
    unfold asks?
    rw [hstatus, hresiduals, victim_alike h]
  unfold removing
  cases hnext : asks? sorted (attempt r sorted budget) with
  | none =>
    rw [removeRounds_of_none hnext, removeRounds_of_none (hasks.trans hnext), hstatus]
    exact ⟨settle_alike h (List.nil_subset sorted) _, h⟩
  | some id =>
    have hid : id ∈ sorted := (victim_mem (asks_eq_some.mp hnext).2).1
    obtain ⟨n, hn⟩ : ∃ n, sorted.length = n + 1 := Nat.exists_eq_succ_of_ne_zero (List.length_pos_of_mem hid).ne'
    rw [hn, removeRounds_of_some hnext, removeRounds_of_some (hasks.trans hnext)]
    exact removeRounds_alike (suspend_alike h id) n (by simpa using hid)

theorem removeRounds_engine (sorted : List ConstraintId) (budget : Nat) (hplain : r.engine.choosesPivots = false)
    (rounds : Nat) (suspended : List ConstraintId) :
    ∃ list, (removeRounds sorted budget rounds r suspended).1.engine = r.engine.withPrepared list := by
  fun_induction removeRounds sorted budget rounds r suspended with
  | case1 rounds r suspended r₁ outcome ha ho =>
    have hengine := engine_attempt hplain sorted budget
    rw [ha] at hengine
    exact ⟨_, hengine⟩
  | case2 r suspended r₁ outcome ha ho id rounds hv ih =>
    have hengine := engine_attempt hplain sorted budget
    rw [ha] at hengine
    obtain ⟨list, hlist⟩ := ih (by
      show r₁.engine.choosesPivots = false
      rw [hengine, Engine.choosesPivots_withPrepared, hplain])
    refine ⟨list, hlist.trans ?_⟩
    show r₁.engine.withPrepared list = _
    rw [hengine, Engine.withPrepared_withPrepared]
  | case3 rounds r suspended r₁ outcome ha ho hnone =>
    have hengine := engine_attempt hplain sorted budget
    rw [ha] at hengine
    exact ⟨_, hengine⟩

end Removing

end Conflict

/-! ## The second solve -/

namespace System

variable {s t : System α}

theorem SameOutline.penaltyOf (h : s.SameOutline t) (id : ConstraintId) : t.penaltyOf id = s.penaltyOf id := by
  have hbare : ∀ u : System α, u.penaltyOf id = (((u.constraint? id).map Constraint.bare).map (·.penalty)).getD 0 := by
    intro u
    unfold System.penaltyOf
    cases u.constraint? id <;> rfl
  rw [hbare, hbare, h.constraints]

theorem SameRules.alike (h : s.SameRules t) (hvalues : t.values = s.values) (hs : s.WellFormed ∧ s.Linked)
    (ids : List ConstraintId) : s.Alike ids t where
  values := hvalues
  sketches id _ := by
    have hsketch : ∀ u : System α, (u.constraint? id).map Constraint.sketch =
        ((u.constraint? id).map Constraint.bare).bind fun c => (u.flag? id).map fun b => { c.sketch with enabled := b } := by
      intro u
      unfold System.flag?
      cases u.constraint? id <;> rfl
    rw [hsketch, hsketch, h.constraints, h.flags]
  sound := hs
  sound' := ⟨h.toSameOutline.wellFormed hs.1, h.toSameOutline.sameTerms.linked hs.2⟩

theorem fillUnset_of_defined (h : ∀ a ∈ s.values, Scalar.isNaN a = false) : s.fillUnset = s := by
  have hslots : s.slots.map (fun slot => { slot with value := if Scalar.isNaN slot.value then 0 else slot.value }) =
      s.slots := by
    apply Array.ext
    · simp
    · intro i h1 h2
      have hvalue : Scalar.isNaN s.slots[i].value = false := h _ (Array.mem_map.mpr ⟨_, Array.getElem_mem h2, rfl⟩)
      simp [hvalue]
  unfold fillUnset mapValues
  rw [hslots]

end System

namespace ResolvingSolver

variable [Generator γ] {d : ResolvingSolver (Engine α γ)} {s : System α}

/-- The attempts of a solve. -/
def trials (d : ResolvingSolver (Engine α γ)) (s : System α) : List (Trial α) :=
  d.strategy.trials (d.task s) (d.agenda s) (d.budget.getD (Relaxation.budget d.engine))

/-- The attempt with which removing begins: all that a solve takes up is enabled. -/
def opening (d : ResolvingSolver (Engine α γ)) (s : System α) : Run α (Engine α γ) × Outcome α :=
  Conflict.attempt (d.task s) (d.agenda s) (d.budget.getD (Relaxation.budget d.engine))

/-- A solve comes to the same status, the same suspensions and the same values as an earlier one. -/
def Repeats (again once : Attempt α (ResolvingSolver (Engine α γ))) : Prop :=
  again.status = once.status ∧ again.solver.suspended = once.solver.suspended ∧
    again.system.values = once.system.values

/-- **What the second solve takes up** is what the first one took up, at the values that the first one left. -/
theorem lift_again (hs : s.WellFormed) (hreset : d.reset = false)
    (hdefined : ∀ a ∈ (d.solve s).system.values, Scalar.isNaN a = false) :
    let once := d.solve s
    (d.lift s).SameRules (once.solver.lift once.system) ∧
      (once.solver.lift once.system).values = once.system.values ∧ once.solver.agenda once.system = d.agenda s := by
  intro once
  obtain ⟨hmarked, -, hsub⟩ := d.resolution_marked hs
  have hrules : (d.lift s).SameRules (once.solver.lift once.system) := by
    refine ⟨hmarked.outline.trans (once.solver.lift_sameOutline once.system), fun id => ?_⟩
    have hflags : once.system.flag? id = _ := hmarked.flags id
    have hagenda : id ∈ d.agenda s ↔ (d.lift s).flag? id = some true := mem_agenda hs
    have hlifted : id ∈ once.solver.suspended → id ∈ d.agenda s := fun hid => hsub hid
    rw [flag?_lift, hflags]
    -- what was suspended is enabled again, and what was not on the agenda was never touched
    by_cases hid : id ∈ once.solver.suspended
    · simp [hid, hlifted hid, hagenda.mp (hlifted hid)]
    · have hfree : id ∉ (d.resolution s).2.suspended := hid
      by_cases hmem : id ∈ d.agenda s
      · simp [hid, hmem, hfree, hagenda.mp hmem]
      · simp [hid, hmem]
  refine ⟨hrules, ?_, ?_⟩
  · unfold lift
    rw [System.values_setEnabledAll, System.seed, show once.solver.reset = false from hreset]
    exact congrArg System.values (System.fillUnset_of_defined hdefined)
  · unfold agenda
    rw [hrules.enabledIds_eq]
    exact System.sortByPriority_congr fun id _ => hrules.toSameOutline.penaltyOf id

theorem solve_sound (d : ResolvingSolver (Engine α γ)) (hs : s.WellFormed ∧ s.Linked) :
    (d.solve s).system.WellFormed ∧ (d.solve s).system.Linked := by
  have houtline : s.SameOutline (d.solve s).system := Solver.Lawful.outline d hs.1
  exact ⟨houtline.wellFormed hs.1, houtline.sameTerms.linked hs.2⟩

theorem solve_plain (hs : s.WellFormed ∧ s.Linked) (hplain : d.engine.choosesPivots = false) :
    (d.solve s).solver.engine.choosesPivots = false := by
  have hlift := d.lift_sameOutline s
  have hrefl : Run.Alike False (d.agenda s) (d.task s) (d.task s) := by
    refine ⟨rfl, hplain, ⟨rfl, fun _ => rfl⟩, System.SameRules.alike (.refl _) rfl ?_ _⟩
    exact ⟨hlift.wellFormed hs.1, hlift.sameTerms.linked hs.2⟩
  exact (d.strategy.resolve_alike hrefl (d.resolution_marked hs.1).2.2).2.plain

theorem tolerance_task (hs : s.WellFormed) : 0 < (d.task s).scope.tolerance := by
  show 0 < (d.lift s).tolerance
  rw [(d.lift_sameOutline s).tolerance]
  exact hs.tolerance

section Searching

variable [Scalar.Lawful α]

/-- What adding and binary search leave: a part of the agenda is suspended, the rest holds, and the status tells whether
something hopeless is suspended. -/
theorem resolution_rested (hstrategy : d.strategy ≠ .removing) (hs : s.WellFormed) :
    let out := d.resolution s
    out.2.suspended.Sublist (d.agenda s) ∧
      out.2.status = (if out.2.suspended.any (Conflict.isHopeless (d.lift s) (d.lift s).tolerance) then .infeasible
        else .optimal) ∧
      Conflict.Rested (d.lift s) (d.lift s).tolerance (d.agenda s) out.2.suspended out.1.system.values := by
  intro out
  have henabled : ∀ id ∈ d.agenda s, (d.task s).system.flag? id = some true := fun id hid => (mem_agenda hs).mp hid
  have htol := tolerance_task (d := d) hs
  obtain ⟨⟨final, h⟩, hstatus⟩ := Strategy.resolve_searched (r := (d.task s).map (Recorder.watch (d.agenda s)))
    hstrategy (nodup_agenda hs) henabled htol rfl rfl (d.budget.getD (Relaxation.budget d.engine))
  have herase : out = _ := d.strategy.resolve_erase ((d.task s).map (Recorder.watch (d.agenda s))) (d.agenda s)
    (d.budget.getD (Relaxation.budget d.engine))
  rw [herase]
  exact ⟨h.sublist, hstatus, h.values ▸ h.rested htol⟩

/-- Adding and binary search repeat a solve if all attempts with a suspended constraint fail. -/
theorem repeats_of_refusals (hstrategy : d.strategy ≠ .removing) (hs : s.WellFormed ∧ s.Linked) (hreset : d.reset = false)
    (hplain : d.engine.choosesPivots = false) (hdefined : ∀ a ∈ (d.solve s).system.values, Scalar.isNaN a = false)
    (told : Trial α → Prop) :
    let once := d.solve s
    Conflict.Refuses (Engine α γ) (once.solver.lift once.system) (once.solver.lift once.system).tolerance
      (once.solver.agenda once.system) (once.solver.budget.getD (Relaxation.budget once.solver.engine))
      once.solver.suspended told →
    (∀ t ∈ once.solver.trials once.system, told t) → Repeats (once.solver.solve once.system) once := by
  intro once hrefuses htold
  obtain ⟨hrules, hvalues, hagenda⟩ := lift_again hs.1 hreset hdefined
  obtain ⟨hsublist, hstatus, hrested⟩ := resolution_rested hstrategy hs.1
  have honce := (solve_sound d hs).1
  have hn := nodup_agenda (d := once.solver) honce
  -- the second solve starts where the first one stopped, and there all that was kept holds
  have hrest : Conflict.Rested (once.solver.lift once.system) (once.solver.lift once.system).tolerance
      (once.solver.agenda once.system) once.solver.suspended once.system.values := by
    rw [hagenda, hrules.tolerance]
    exact Conflict.Rested.of_outline hrested hrules.toSameOutline
  obtain ⟨hsuspended, hkept⟩ := Strategy.resolve_foreseen (r := once.solver.task once.system) hstrategy hn
    (fun id hid => (mem_agenda honce).mp hid) (tolerance_task honce) (hrest.foresees (tolerance_task honce) hn hrefuses)
    (solve_plain hs hplain) hvalues htold
  have hsame : (once.solver.resolution once.system).2.suspended = once.solver.suspended := by
    refine Eq.trans hsuspended (filter_mem_of_sublist ?_ hn)
    rw [hagenda]
    exact hsublist
  obtain ⟨-, hstatus', -⟩ := resolution_rested (d := once.solver) hstrategy honce
  refine ⟨?_, hsame, hkept⟩
  show (once.solver.resolution once.system).2.status = (d.resolution s).2.status
  rw [hstatus', hstatus, hsame, hrules.tolerance, Conflict.isHopeless_of_outline hrules.toSameOutline]
  rfl

omit [Scalar.Lawful α] in
theorem not_suspended_of_optimal (hstrategy : d.strategy ≠ .removing) (hs : s.WellFormed) {t : Trial α}
    (ht : t ∈ d.trials s) (ho : t.status = .optimal) : ∀ id ∈ t.members, id ∉ (d.solve s).solver.suspended := by
  have hn := nodup_agenda (d := d) hs
  obtain ⟨e, htrials, -, hkept⟩ := Strategy.resolve_keeps hstrategy hn (fun id hid => (mem_agenda hs).mp hid)
    (tolerance_task hs) (Conflict.accepted_stepsKeep hn) (by simp)
  exact fun id hid => (hkept t (htrials.symm ▸ ht) ho id hid).2

end Searching

section Removing

/-- A solve by removing leaves the relaxation as it was, but for the list that it is prepared for. -/
theorem engine_of_removing (hstrategy : d.strategy = .removing) (hplain : d.engine.choosesPivots = false) :
    (∃ list, (d.solve s).solver.engine = d.engine.withPrepared list) ∧
      Relaxation.budget (d.solve s).solver.engine = Relaxation.budget d.engine := by
  have hrounds := Conflict.removeRounds_engine (d.agenda s) (d.budget.getD (Relaxation.budget d.engine))
    (r := d.task s) hplain (d.agenda s).length []
  obtain ⟨list, hengine⟩ : ∃ list, (d.solve s).solver.engine = d.engine.withPrepared list := by
    rw [show (d.solve s).solver.engine = (d.strategy.resolve (d.task s) (d.agenda s)
      (d.budget.getD (Relaxation.budget d.engine))).1.engine from rfl, hstrategy]
    exact hrounds
  refine ⟨⟨list, hengine⟩, ?_⟩
  rw [hengine]
  cases d.engine <;> rfl

theorem again_of_removing (hstrategy : d.strategy = .removing) (hs : s.WellFormed) (hreset : d.reset = false)
    (hplain : d.engine.choosesPivots = false) (hdefined : ∀ a ∈ (d.solve s).system.values, Scalar.isNaN a = false) :
    let once := d.solve s
    let task := once.solver.task once.system
    let budget := d.budget.getD (Relaxation.budget d.engine)
    once.solver.opening once.system = Conflict.attempt task (d.agenda s) budget ∧
      d.resolution s = Conflict.removing (d.task s) (d.agenda s) budget ∧
      once.solver.resolution once.system = Conflict.removing task (d.agenda s) budget := by
  intro once task budget
  obtain ⟨-, -, hagenda⟩ := lift_again hs hreset hdefined
  have hbudget : once.solver.budget.getD (Relaxation.budget once.solver.engine) = budget :=
    congrArg d.budget.getD (engine_of_removing hstrategy hplain).2
  have hsame : once.solver.strategy = .removing := hstrategy
  unfold opening resolution
  rw [hstrategy, hsame, hagenda, hbudget]
  exact ⟨rfl, rfl, rfl⟩

theorem opening_alike (hstrategy : d.strategy = .removing) (hs : s.WellFormed ∧ s.Linked) (hreset : d.reset = false)
    (hplain : d.engine.choosesPivots = false) (hdefined : ∀ a ∈ (d.solve s).system.values, Scalar.isNaN a = false)
    (hvalues : ((d.solve s).solver.opening (d.solve s).system).1.system.values = (d.opening s).1.system.values) :
    Run.Alike False (d.agenda s) (d.opening s).1 ((d.solve s).solver.opening (d.solve s).system).1 := by
  obtain ⟨hrules, -, -⟩ := lift_again hs.1 hreset hdefined
  obtain ⟨hopening, -, -⟩ := again_of_removing hstrategy hs.1 hreset hplain hdefined
  obtain ⟨⟨list, hengine⟩, -⟩ := engine_of_removing (s := s) hstrategy hplain
  rw [hopening] at hvalues ⊢
  have hfirst := Conflict.engine_attempt (r := d.task s) hplain (d.agenda s) (d.budget.getD (Relaxation.budget d.engine))
  have hsecond := Conflict.engine_attempt (r := (d.solve s).solver.task (d.solve s).system) (solve_plain hs hplain)
    (d.agenda s) (d.budget.getD (Relaxation.budget d.engine))
  have hrules₁ := Conflict.attempt_rules (d.task s) (d.agenda s) (d.budget.getD (Relaxation.budget d.engine))
  have hrules₂ := Conflict.attempt_rules ((d.solve s).solver.task (d.solve s).system) (d.agenda s)
    (d.budget.getD (Relaxation.budget d.engine))
  have htol₁ := ((Conflict.Follows.refl (d.task s)).attempt (d.agenda s)
    (d.budget.getD (Relaxation.budget d.engine))).tolerance
  have htol₂ := ((Conflict.Follows.refl ((d.solve s).solver.task (d.solve s).system)).attempt (d.agenda s)
    (d.budget.getD (Relaxation.budget d.engine))).tolerance
  have houtline := (d.lift_sameOutline s).trans hrules₁.toSameOutline
  refine ⟨?_, ?_, ⟨htol₂.trans (hrules.tolerance.trans htol₁.symm), False.elim⟩, ?_⟩
  · rw [opening, hfirst, hsecond]
    show (d.solve s).solver.engine.withPrepared (((d.solve s).solver.lift (d.solve s).system).liveIds _) =
      d.engine.withPrepared ((d.lift s).liveIds _)
    rw [hrules.liveIds_eq, hengine, Engine.withPrepared_withPrepared]
  · rw [opening, hfirst, Engine.choosesPivots_withPrepared]
    exact hplain
  · refine System.SameRules.alike (.trans ⟨hrules₁.toSameOutline.symm, fun id => (hrules₁.flags id).symm⟩
      (hrules.trans hrules₂)) hvalues ⟨houtline.wellFormed hs.1, houtline.sameTerms.linked hs.2⟩ _

/-- Removing repeats a solve if its first attempt ends like that of the first solve. -/
theorem repeats_of_opening (hstrategy : d.strategy = .removing) (hs : s.WellFormed ∧ s.Linked) (hreset : d.reset = false)
    (hplain : d.engine.choosesPivots = false) (hdefined : ∀ a ∈ (d.solve s).system.values, Scalar.isNaN a = false) :
    let once := d.solve s
    let first := d.opening s
    let second := once.solver.opening once.system
    second.1.system.values = first.1.system.values → second.2.status = first.2.status →
      second.2.residuals = first.2.residuals → Repeats (once.solver.solve once.system) once := by
  intro once first second hvalues hstatus hresiduals
  have halike : Run.Alike False (d.agenda s) first.1 second.1 :=
    opening_alike hstrategy hs hreset hplain hdefined hvalues
  obtain ⟨hopening, hfirst, hsecond⟩ := again_of_removing hstrategy hs.1 hreset hplain hdefined
  change second = _ at hopening
  rw [hopening] at halike hstatus hresiduals
  obtain ⟨hresolution, hrun⟩ := Conflict.removing_alike_of_attempt halike hstatus hresiduals
  rw [← hfirst, ← hsecond] at hresolution hrun
  exact ⟨congrArg Resolution.status hresolution, congrArg Resolution.suspended hresolution, hrun.system.values⟩

variable [Scalar.Lawful α]

/-- Removing repeats a solve that has ended optimally without any suspension. -/
theorem repeats_of_removing_nothing (hstrategy : d.strategy = .removing) (hs : s.WellFormed ∧ s.Linked)
    (hreset : d.reset = false) (hplain : d.engine.choosesPivots = false)
    (hdefined : ∀ a ∈ (d.solve s).system.values, Scalar.isNaN a = false) (ho : (d.solve s).status = .optimal)
    (hnone : (d.solve s).solver.suspended = []) : Repeats ((d.solve s).solver.solve (d.solve s).system) (d.solve s) := by
  obtain ⟨hrules, hlift, -⟩ := lift_again hs.1 hreset hdefined
  obtain ⟨-, hfirst, hsecond⟩ := again_of_removing hstrategy hs.1 hreset hplain hdefined
  obtain ⟨gone, -, hgone⟩ := Conflict.removing_settled (d.task s) (d.agenda s)
    (d.budget.getD (Relaxation.budget d.engine))
  rw [hgone] at hfirst
  obtain rfl : gone = [] := by
    rw [← hnone, show (d.solve s).solver.suspended = (d.resolution s).2.suspended from rfl, hfirst]
    rfl
  -- so the only attempt of the first solve has ended optimally
  set first := Conflict.attempt (d.task s) (d.agenda s) (d.budget.getD (Relaxation.budget d.engine)) with hattempt
  have hstatus : first.2.status = .optimal := by
    rw [← ho, show (d.solve s).status = (d.resolution s).2.status from rfl, hfirst]
    rfl
  have hvalues : (d.solve s).system.values = first.1.system.values := by
    rw [show (d.solve s).system = (d.resolution s).1.system from rfl, hfirst]
    rfl
  -- the second solve starts where that attempt stopped, so its first attempt has nothing to do
  have hpair : Conflict.attempt (d.task s) (d.agenda s) (d.budget.getD (Relaxation.budget d.engine)) =
      (first.1, first.2) := hattempt.symm
  obtain ⟨hkept, -, hmax⟩ := Conflict.attempt_spec hpair
  have hmet : (Summary.measure ((((d.solve s).solver.lift (d.solve s).system).live (d.agenda s)).map (·.2))
      ((d.solve s).solver.lift (d.solve s).system).values).max < ((d.solve s).solver.lift (d.solve s).system).tolerance := by
    rw [Summary.measure_of_rules hrules, hlift, hvalues, hrules.tolerance]
    exact Summary.measure_of_rules hkept (d.agenda s) _ ▸ hmax (Status.isOptimal_iff.mpr hstatus)
  have hrest := Conflict.attempt_rest (r := (d.solve s).solver.task (d.solve s).system) (solve_plain hs hplain) hmet
    (d.budget.getD (Relaxation.budget d.engine))
  have hasks : Conflict.asks? (d.agenda s) (Conflict.attempt ((d.solve s).solver.task (d.solve s).system) (d.agenda s)
      (d.budget.getD (Relaxation.budget d.engine))) = none := if_pos (Status.isOptimal_iff.mpr hrest.1)
  rw [Conflict.removing, Conflict.removeRounds_of_none hasks] at hsecond
  refine ⟨?_, ?_, ?_⟩
  · show ((d.solve s).solver.resolution (d.solve s).system).2.status = _
    rw [hsecond, ho]
    exact hrest.1
  · show ((d.solve s).solver.resolution (d.solve s).system).2.suspended = _
    rw [hsecond, hnone]
    rfl
  · show ((d.solve s).solver.resolution (d.solve s).system).1.system.values = _
    rw [hsecond]
    exact hrest.2.trans hlift

end Removing

end ResolvingSolver

namespace Model

open ResolvingSolver

/-- **When a second solve repeats the first.**  Take a system after any history and a resolving solver without reset, over
a relaxation that chooses no pivots, that leaves no value undefined; and solve twice.

* By adding or binary search, the second solve comes to the status, the suspensions and the values of the first exactly
  when each of its attempts with a constraint that the first has suspended fails again.  So it is if each suspended
  constraint contradicts what is kept before it.
* By removing, it does so if its first attempt leaves the values, status and residuals that the first attempt of the first
  solve has left.
* By any strategy, it does so if the first solve has ended optimally without suspending anything. -/
theorem solve_again_spec [Generator γ] [Scalar.Lawful α] (i : Nat) (x : Option (AnySolver (Engine α γ)))
    (actions : List (Action α (AnySolver (Engine α γ)))) (d : ResolvingSolver (Engine α γ)) (hreset : d.reset = false)
    (hplain : d.engine.choosesPivots = false)
    (hdefined : ∀ a ∈ (d.solve ((Model.new i x).perform actions).system).system.values, Scalar.isNaN a = false) :
    let s := ((Model.new i x).perform actions).system
    let once := d.solve s
    let again := once.solver.solve once.system
    (d.strategy ≠ .removing → (Repeats again once ↔ ∀ t ∈ once.solver.trials once.system,
      (∃ id ∈ once.solver.suspended, id ∈ t.members) → t.status ≠ .optimal)) ∧
    (d.strategy ≠ .removing → Conflict.Contradicted s s.tolerance (d.agenda s) once.solver.suspended →
      Repeats again once) ∧
    (d.strategy = .removing →
      (once.solver.opening once.system).1.system.values = (d.opening s).1.system.values →
      (once.solver.opening once.system).2.status = (d.opening s).2.status →
      (once.solver.opening once.system).2.residuals = (d.opening s).2.residuals → Repeats again once) ∧
    (once.status = .optimal → once.solver.suspended = [] → Repeats again once) := by
  intro s once again
  have hs : s.WellFormed ∧ s.Linked := perform_sound i x actions
  obtain ⟨hrules, -, hagenda⟩ := lift_again hs.1 hreset hdefined
  have honce := (solve_sound d hs).1
  have hn := nodup_agenda (d := once.solver) honce
  refine ⟨fun hstrategy => ⟨?_, ?_⟩, ?_, ?_, ?_⟩
  · rintro ⟨-, hsuspended, -⟩ t ht ⟨id, hid, hmember⟩ ho
    -- an optimal attempt keeps its members, but the repeated solve suspends them
    refine not_suspended_of_optimal (d := once.solver) hstrategy honce ht ho id hmember ?_
    exact hsuspended.symm ▸ hid
  · exact repeats_of_refusals hstrategy hs hreset hplain hdefined _ (Conflict.refuses_of_record hn)
  · intro hstrategy hcontra
    have houtline := (d.lift_sameOutline s).trans hrules.toSameOutline
    have htol : (once.solver.task once.system).scope.tolerance = s.tolerance := houtline.tolerance
    refine repeats_of_refusals hstrategy hs hreset hplain hdefined (fun _ => True) ?_ fun _ _ => trivial
    refine Conflict.Contradicted.refuses ?_ (tolerance_task honce) hn _ _
    rw [hagenda, htol]
    exact hcontra.of_outline houtline
  · exact fun hstrategy => repeats_of_opening hstrategy hs hreset hplain hdefined
  · intro ho hnone
    by_cases hstrategy : d.strategy = .removing
    · exact repeats_of_removing_nothing hstrategy hs hreset hplain hdefined ho hnone
    · -- nothing was suspended, so no window has to be refused
      refine repeats_of_refusals hstrategy hs hreset hplain hdefined (fun _ => True) ?_ fun _ _ => trivial
      intro done window pending r r₁ outcome committed _ _ _ _ hwindow
      refine absurd ?_ hwindow
      intro id _
      rw [hnone]
      exact List.not_mem_nil

/-- Two equalities over binary64 that contradict each other: the second solve suspends the second one again. -/
theorem solve_again_of_contradiction :
    let sum : List (Term Float) := [⟨1, ⟨0, 0⟩⟩]
    let actions : List (Action Float (AnySolver (Engine Float KeyStream))) := [.edit (.addVariable none),
      .edit (.add ⟨sum, .eq, .fixed 4, 1, true, none, none⟩), .edit (.add ⟨sum, .eq, .fixed 6, 0.5, true, none, none⟩)]
    let s := ((Model.new 0 none).perform actions).system
    let d : ResolvingSolver (Engine Float KeyStream) := .new .binarySearch (.kaczmarz ⟨3, 1, 1, []⟩) false none
    let once := d.solve s
    once.solver.suspended = [⟨1⟩] ∧ Repeats (once.solver.solve once.system) once := by
  intro sum actions s d once
  have h := solve_again_spec 0 none actions d rfl rfl (by decide +kernel)
  exact ⟨by decide +kernel, (h.1 (by decide)).mpr (by decide +kernel)⟩

/-- Over binary64, with attempts of one sweep: `x + y = 2`, `x = 0` and `x - y = -2` hold together at the point where the
first solve ends, but not every attempt on the way there has come so far.  The first solve suspends one of the three
constraints, and the second none. -/
theorem solve_again_of_exhausted_budget :
    let edits : List (Edit Float) := [.addVariable none, .addVariable none,
      .add ⟨[⟨1, ⟨0, 0⟩⟩, ⟨1, ⟨0, 1⟩⟩], .eq, .fixed 2, 1, true, none, none⟩,
      .add ⟨[⟨1, ⟨0, 0⟩⟩], .eq, .fixed 0, 1, true, none, none⟩,
      .add ⟨[⟨1, ⟨0, 0⟩⟩, ⟨-1, ⟨0, 1⟩⟩], .eq, .fixed (-2), 1, true, none, none⟩]
    let engine : Engine Float KeyStream := .kaczmarz ⟨1, 1, 1, []⟩
    let start (strategy : Strategy) := (Model.new 0 (some (ResolvingSolver.new strategy engine false none))).replay edits
    let suspended (strategy : Strategy) : Option (List ConstraintId) × Option (List ConstraintId) :=
      let once := (start strategy).solve.1
      (once.solver.map (·.suspended), once.solve.1.solver.map (·.suspended))
    [Strategy.adding, .removing, .binarySearch].map suspended =
      [(some [⟨1⟩], some []), (some [⟨2⟩], some []), (some [⟨1⟩], some [])] := by
  decide +kernel

end Model

end SoftLinear
