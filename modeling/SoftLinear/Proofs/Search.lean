import Mathlib.Data.List.Nodup
import SoftLinear.Proofs.Recorder
import SoftLinear.Random

/-!
# The search for conflicts

The strategies switch ranges of flags on and off.  What they keep up is said in two steps:

* `Conflict.Marked` is about flags alone: of the list, exactly the constraints that were dealt with and not suspended are
  enabled, and all else is as it was;
* `Conflict.Searched` adds what the two strategies that build up from nothing know: the values are those of the last
  attempt that ended well, the residuals of the accepted constraints are below the tolerance there, and each suspended
  constraint has an attempt that failed because of it.

Each kind of step has its lemma (`accept`, `reject`, `suspend`), and the loops are inductions over them.
-/

namespace SoftLinear

theorem Status.isOptimal_iff {status : Status} : status.isOptimal = true ↔ status = .optimal := by
  simp [Status.isOptimal]

theorem filter_mem_of_sublist {β : Type} [DecidableEq β] {part list : List β} (h : part.Sublist list)
    (hn : list.Nodup) : list.filter (· ∈ part) = part := by
  induction h with
  | slnil => rfl
  | cons a h ih =>
    obtain ⟨ha, hn⟩ := List.nodup_cons.mp hn
    rw [List.filter_cons_of_neg (by simpa using fun hmem => ha (h.subset hmem)), ih hn]
  | cons_cons a h ih =>
    obtain ⟨ha, hn⟩ := List.nodup_cons.mp hn
    rw [List.filter_cons_of_pos (by simp)]
    refine congrArg (a :: ·) (Eq.trans (List.filter_congr fun x hx => ?_) (ih hn))
    have hne : x ≠ a := fun heq => ha (heq ▸ hx)
    simp [hne]

namespace Conflict

/-! ## Flags -/

section Flags

variable {α : Type} {base s t : System α} {sorted done window suspended : List ConstraintId} {id : ConstraintId}

/-- Of the list, exactly the constraints that were dealt with and not suspended are enabled; other flags are as before. -/
structure Marked (base : System α) (sorted done suspended : List ConstraintId) (s : System α) : Prop where
  outline : base.SameOutline s
  flags : ∀ id, s.flag? id =
    if id ∈ sorted then some (decide (id ∈ done ∧ id ∉ suspended)) else base.flag? id

theorem Marked.of_rules (h : Marked base sorted done suspended s) (ht : s.SameRules t) :
    Marked base sorted done suspended t :=
  ⟨h.outline.trans ht.toSameOutline, fun id => (ht.flags id).trans (h.flags id)⟩

theorem marked_all (h : ∀ id ∈ sorted, base.flag? id = some true) : Marked base sorted sorted [] base where
  outline := .refl base
  flags id := by
    split
    · rename_i hid
      simp [h id hid, hid]
    · rfl

theorem marked_none (h : ∀ id ∈ sorted, base.flag? id = some true) :
    Marked base sorted [] [] (base.setEnabledAll sorted false) where
  outline := base.setEnabledAll_sameOutline sorted false
  flags id := by
    rw [System.flag?_setEnabledAll]
    split
    · rename_i hid
      simp [h id hid]
    · rfl

theorem Marked.enable (h : Marked base sorted done suspended s) (hw : ∀ id ∈ window, id ∈ sorted ∧ id ∉ suspended) :
    Marked base sorted (done ++ window) suspended (s.setEnabledAll window true) where
  outline := h.outline.trans (s.setEnabledAll_sameOutline window true)
  flags id := by
    rw [System.flag?_setEnabledAll, h.flags]
    by_cases hid : id ∈ window
    · obtain ⟨h1, h2⟩ := hw id hid
      simp [hid, h1, h2]
    · simp [hid]

theorem Marked.disable (h : Marked base sorted (done ++ window) suspended s)
    (hw : ∀ id ∈ window, id ∈ sorted ∧ id ∉ done) :
    Marked base sorted done suspended (s.setEnabledAll window false) where
  outline := h.outline.trans (s.setEnabledAll_sameOutline window false)
  flags id := by
    rw [System.flag?_setEnabledAll, h.flags]
    by_cases hid : id ∈ window
    · obtain ⟨h1, h2⟩ := hw id hid
      simp [hid, h1, h2]
    · simp [hid]

theorem Marked.suspend (h : Marked base sorted done suspended s) (hid : id ∈ sorted) :
    Marked base sorted done (suspended ++ [id]) (s.setEnabledAll [id] false) where
  outline := h.outline.trans (s.setEnabledAll_sameOutline [id] false)
  flags other := by
    rw [System.flag?_setEnabledAll, h.flags]
    by_cases ho : other = id
    · subst ho
      simp [hid]
    · simp [ho]

/-- A suspended constraint may count as dealt with or not. -/
theorem Marked.grow (h : Marked base sorted done suspended s) (hid : id ∈ suspended) :
    Marked base sorted (done ++ [id]) suspended s where
  outline := h.outline
  flags other := by
    rw [h.flags]
    by_cases ho : other = id
    · subst ho
      simp [hid]
    · simp [ho]

/-- A constraint that was suspended as soon as it was dealt with makes no difference to the flags. -/
theorem Marked.forget (h : Marked base sorted (done ++ [id]) (suspended ++ [id]) s) (hid : id ∉ done) :
    Marked base sorted done suspended s where
  outline := h.outline
  flags other := by
    rw [h.flags]
    by_cases ho : other = id
    · subst ho
      simp [hid]
    · simp [ho]

theorem Marked.sameRules (h : Marked base sorted done suspended s) (k : Marked base sorted done suspended t) :
    s.SameRules t :=
  ⟨h.outline.symm.trans k.outline, fun id => (k.flags id).trans (h.flags id).symm⟩

theorem Marked.liveIds_eq (h : Marked base sorted done suspended s) :
    s.liveIds sorted = sorted.filter fun id => id ∈ done ∧ id ∉ suspended := by
  rw [System.liveIds_eq_filter]
  apply List.filter_congr
  intro id hid
  rw [h.flags, if_pos hid]
  simp

theorem Marked.liveIds_window {pending : List ConstraintId} (h : Marked base sorted (done ++ window) suspended s)
    (hsplit : sorted = done ++ window ++ pending) (hn : sorted.Nodup) (hsub : suspended ⊆ done) :
    s.liveIds sorted = done.filter (· ∉ suspended) ++ window := by
  rw [h.liveIds_eq, hsplit, List.filter_append, List.filter_append]
  rw [hsplit, List.nodup_append, List.nodup_append] at hn
  obtain ⟨⟨-, -, hdw⟩, -, hp⟩ := hn
  have hdone : done.filter (fun id => id ∈ done ++ window ∧ id ∉ suspended) = done.filter (· ∉ suspended) := by
    apply List.filter_congr
    intro id hid
    simp [hid]
  have hwindow : window.filter (fun id => id ∈ done ++ window ∧ id ∉ suspended) = window := by
    apply List.filter_eq_self.mpr
    intro id hid
    have : id ∉ suspended := fun hs => hdw id (hsub hs) id hid rfl
    simp [hid, this]
  have hpending : pending.filter (fun id => id ∈ done ++ window ∧ id ∉ suspended) = [] := by
    apply List.filter_eq_nil_iff.mpr
    intro id hid
    have : id ∉ done ++ window := fun hd => hp id hd id hid rfl
    simp [this]
  rw [hdone, hwindow, hpending, List.append_nil]

end Flags

/-! ## Attempts -/

section Attempts

variable {α ρ : Type} [Scalar α] [Relaxation α ρ] [Relaxation.Lawful α ρ] {r r' : Run α ρ} {outcome : Outcome α}
  {sorted : List ConstraintId} {budget : Nat}

/-- What an attempt does: it keeps the rules, adds to the log, and ends optimally only with all residuals of the enabled
constraints of the list below the tolerance. -/
theorem attempt_spec (h : attempt r sorted budget = (r', outcome)) :
    r.system.SameRules r'.system ∧ r.scope.Extends r'.scope ∧ (outcome.status.isOptimal = true →
      (Summary.measure ((r'.system.live sorted).map (·.2)) r'.system.values).max < r.scope.tolerance) := by
  obtain ⟨rfl, rfl⟩ := Prod.mk.inj h
  have hprepare := Relaxation.Lawful.prepare_rules r (r.system.liveIds sorted)
  have hrelax := Relaxation.Lawful.relax_rules (Relaxation.prepare r (r.system.liveIds sorted)) budget
  have hrules := hprepare.trans hrelax
  refine ⟨hrules, (Relaxation.Lawful.prepare_scope r _).trans (Relaxation.Lawful.relax_scope _ budget), ?_⟩
  intro ho
  have hmax := Relaxation.Lawful.relax_optimal r (r.system.liveIds sorted) budget (Status.isOptimal_iff.mp ho)
  rw [System.live_liveIds, ← Summary.measure_of_rules hrules] at hmax
  exact hmax

end Attempts

theorem attempt_trials {α ρ : Type} [Relaxation α ρ] [Relaxation.KeepsRules α ρ] {r r' : Run α (Recorder α ρ)}
    {outcome : Outcome α} {sorted : List ConstraintId} {budget : Nat} (h : attempt r sorted budget = (r', outcome)) :
    r'.engine.watched = r.engine.watched ∧ r'.engine.trials = r.engine.trials ++
      [⟨r.system.liveIds r.engine.watched, outcome.status, r'.system.values, r'.scope.log.size⟩] := by
  obtain ⟨rfl, rfl⟩ := Prod.mk.inj h
  have hrules := Relaxation.KeepsRules.prepare_rules r (r.system.liveIds sorted)
  refine ⟨rfl, (Recorder.relax_trials _ _).trans ?_⟩
  rw [hrules.liveIds_eq]
  rfl

/-! ## What a search has found so far -/

/-- Whether an event only says which window was tried. -/
def isNote {α : Type} : Event α → Bool
  | .windowTried .. => true
  | _ => false

/-- The values that the last attempt that ended optimally has left; the initial ones if there is none. -/
def lastGood {α : Type} (initial : Point α) (trials : List (Trial α)) : Point α :=
  ((trials.filter (·.status.isOptimal)).getLast?.map (·.values)).getD initial

theorem lastGood_append {α : Type} (initial : Point α) (trials : List (Trial α)) (t : Trial α) :
    lastGood initial (trials ++ [t]) = if t.status.isOptimal then t.values else lastGood initial trials := by
  unfold lastGood
  rw [List.filter_append]
  cases h : t.status.isOptimal <;> simp [h]

theorem window_single {rest : List ConstraintId} {id : ConstraintId} {others : Nat} (h : ¬ 1 < (id :: rest.take others).length) :
    id :: rest.take others = [id] := by
  have hlen : (rest.take others).length = 0 := by
    rw [List.length_cons] at h
    omega
  rw [List.length_eq_zero_iff.mp hlen]

section Search

variable {α ρ : Type} [Scalar α] [Relaxation α ρ] {base : System α} {tol : α} {budget : Nat}
  {sorted done window pending suspended : List ConstraintId} {c : ConstraintId} {committed : Point α}
  {r r₁ r₂ r₃ : Run α (Recorder α ρ)} {outcome : Outcome α}

/-- The second run is the first with some notes more in the log. -/
structure Noted (r₁ r₂ : Run α (Recorder α ρ)) : Prop where
  engine : r₂.engine = r₁.engine
  system : r₂.system = r₁.system
  tolerance : r₂.scope.tolerance = r₁.scope.tolerance
  log : ∃ notes, r₂.scope.log.toList = r₁.scope.log.toList ++ notes ∧ ∀ e ∈ notes, isNote e = true

omit [Scalar α] [Relaxation α ρ] in
theorem Noted.refl (r : Run α (Recorder α ρ)) : Noted r r := ⟨rfl, rfl, rfl, [], by simp, by simp⟩

omit [Scalar α] [Relaxation α ρ] in
theorem noted_window (r : Run α (Recorder α ρ)) (start stop : Nat) (status : Status) :
    Noted r { r with scope := r.scope.report (.windowTried start stop status) } :=
  ⟨rfl, rfl, rfl, [.windowTried start stop status], by simp [Scope.report], by simp [isNote]⟩

/-- An attempt failed because of `c`: its members were the constraints accepted before `c`, and `c` itself, and right
after it `c` was suspended. -/
def Blamed (r : Run α (Recorder α ρ)) (done suspended : List ConstraintId) (c : ConstraintId) : Prop :=
  ∃ t ∈ r.engine.trials, ∃ before after, done = before ++ c :: after ∧ t.status ≠ .optimal ∧
    t.members = before.filter (· ∉ suspended) ++ [c] ∧
    ∃ penalty, (r.scope.log.toList.drop t.reported).find? (!isNote ·) = some (.constraintSuspended c penalty)

omit [Scalar α] [Relaxation α ρ] in
/-- Blame stays when the search goes on. -/
theorem Blamed.mono (h : Blamed r done suspended c) (htrials : r.engine.trials <+: r₁.engine.trials)
    (hlog : r.scope.log.toList <+: r₁.scope.log.toList) (window more : List ConstraintId)
    (hmore : ∀ id ∈ more, id ∉ done) : Blamed r₁ (done ++ window) (suspended ++ more) c := by
  obtain ⟨t, ht, before, after, rfl, hstatus, hmembers, penalty, hfind⟩ := h
  refine ⟨t, htrials.subset ht, before, after ++ window, by simp, hstatus, ?_, penalty, ?_⟩
  · rw [hmembers]
    congr 1
    apply List.filter_congr
    intro id hid
    have : id ∉ more := fun hm => hmore id hm (by simp [hid])
    simp [this]
  · obtain ⟨rest, hrest⟩ := hlog
    rw [← hrest, List.drop_append, List.find?_append, hfind]
    rfl

/-- **What a search knows** when it has dealt with a first part of the list. -/
structure Searched (base : System α) (tol : α) (sorted done : List ConstraintId) (r : Run α (Recorder α ρ))
    (committed : Point α) (suspended : List ConstraintId) : Prop where
  marked : Marked base sorted done suspended r.system
  watched : r.engine.watched = sorted
  tolerance : r.scope.tolerance = tol
  sublist : suspended.Sublist done
  values : r.system.values = committed
  good : lastGood base.values r.engine.trials = committed
  met : (Summary.measure ((r.system.live sorted).map (·.2)) committed).max < tol
  blamed : ∀ c ∈ suspended, Blamed r done suspended c

theorem not_mem_of_split (hsplit : sorted = done ++ window ++ pending) (hn : sorted.Nodup) :
    ∀ id ∈ window, id ∉ done := by
  intro id hid hdone
  rw [hsplit, List.append_assoc, List.nodup_append] at hn
  exact hn.2.2 id hdone id (List.mem_append_left _ hid) rfl

omit [Relaxation α ρ] in
theorem suspend_log (r : Run α ρ) (id : ConstraintId) : ∃ penalty,
    (Conflict.suspend r id).scope.log.toList = r.scope.log.toList ++ [.constraintSuspended id penalty] :=
  ⟨_, Array.toList_push⟩

omit [Relaxation α ρ] in
/-- A search begins with nothing enabled. -/
theorem searched_start (h : ∀ id ∈ sorted, r.system.flag? id = some true) (htol : 0 < r.scope.tolerance)
    (hwatched : r.engine.watched = sorted) (hnew : r.engine.trials = []) :
    Searched r.system r.scope.tolerance sorted [] (switch r sorted false) (switch r sorted false).system.values [] := by
  have hmarked := marked_none h
  have hvalues : (switch r sorted false).system.values = r.system.values := r.system.values_setEnabledAll sorted false
  refine ⟨hmarked, hwatched, rfl, List.Sublist.refl _, rfl, ?_, ?_, by simp⟩
  · show lastGood r.system.values r.engine.trials = _
    rw [hnew, hvalues]
    rfl
  · have hlive : (switch r sorted false).system.live sorted = [] := by
      apply List.map_eq_nil_iff.mp
      exact hmarked.liveIds_eq.trans (by simp)
    rw [hlive]
    exact htol

variable [Relaxation.Lawful α ρ]

/-- What is known right after an attempt with a window on top of what was accepted. -/
theorem Searched.tried (h : Searched base tol sorted done r committed suspended)
    (hsplit : sorted = done ++ window ++ pending) (hn : sorted.Nodup)
    (ha : attempt (switch r window true) sorted budget = (r₁, outcome)) :
    Marked base sorted (done ++ window) suspended r₁.system ∧ r₁.scope.tolerance = tol ∧
      r₁.engine.watched = sorted ∧ r₁.engine.trials = r.engine.trials ++
        [⟨done.filter (· ∉ suspended) ++ window, outcome.status, r₁.system.values, r₁.scope.log.size⟩] ∧
      r.scope.log.toList <+: r₁.scope.log.toList ∧ committed.size = r₁.system.slots.size := by
  obtain ⟨hrules, hscope, -⟩ := attempt_spec ha
  obtain ⟨hwatched, htrials⟩ := attempt_trials ha
  have hdisjoint := not_mem_of_split hsplit hn
  have hswitched : Marked base sorted (done ++ window) suspended (r.system.setEnabledAll window true) := by
    apply h.marked.enable
    intro id hid
    exact ⟨by simp [hsplit, hid], fun hs => hdisjoint id hid (h.sublist.subset hs)⟩
  have hmarked := hswitched.of_rules hrules
  refine ⟨hmarked, hscope.tolerance.trans h.tolerance, hwatched.trans h.watched, ?_, hscope.log, ?_⟩
  · have hmembers : (switch r window true).system.liveIds (switch r window true).engine.watched = _ :=
      (congrArg (System.liveIds _) h.watched).trans (hswitched.liveIds_window hsplit hn h.sublist.subset)
    rw [htrials, hmembers]
    rfl
  · rw [← h.values, System.size_values]
    exact ((h.marked.outline.symm.trans hmarked.outline).slots_size).symm

theorem Searched.grows (h : Searched base tol sorted done r committed suspended)
    (hsplit : sorted = done ++ window ++ pending) (hn : sorted.Nodup)
    (ha : attempt (switch r window true) sorted budget = (r₁, outcome)) (hnoted : Noted r₁ r₂) :
    r.engine.trials <+: r₂.engine.trials ∧ r.scope.log.toList <+: r₂.scope.log.toList := by
  obtain ⟨-, -, -, htrials, hlog, -⟩ := h.tried hsplit hn ha
  obtain ⟨notes, hnotes, -⟩ := hnoted.log
  rw [hnoted.engine, htrials, hnotes]
  exact ⟨List.prefix_append _ _, hlog.trans (List.prefix_append _ _)⟩

theorem Searched.accept (h : Searched base tol sorted done r committed suspended)
    (hsplit : sorted = done ++ window ++ pending) (hn : sorted.Nodup)
    (ha : attempt (switch r window true) sorted budget = (r₁, outcome)) (ho : outcome.status.isOptimal = true)
    (hnoted : Noted r₁ r₂) : Searched base tol sorted (done ++ window) r₂ r₂.system.values suspended := by
  obtain ⟨hmarked, htol, hwatched, htrials, -, -⟩ := h.tried hsplit hn ha
  obtain ⟨hmore, hlog⟩ := h.grows hsplit hn ha hnoted
  refine ⟨hnoted.system ▸ hmarked, hnoted.engine ▸ hwatched, hnoted.tolerance.trans htol,
    h.sublist.trans (List.sublist_append_left _ _), rfl, ?_, ?_, ?_⟩
  · rw [hnoted.engine, hnoted.system, htrials, lastGood_append, if_pos ho]
  · have hmax := (attempt_spec ha).2.2 ho
    rw [hnoted.system]
    exact h.tolerance ▸ hmax
  · intro c hc
    have hmono := (h.blamed c hc).mono hmore hlog window [] (by simp)
    rwa [List.append_nil] at hmono

theorem Searched.reject (h : Searched base tol sorted done r committed suspended)
    (hsplit : sorted = done ++ window ++ pending) (hn : sorted.Nodup)
    (ha : attempt (switch r window true) sorted budget = (r₁, outcome)) (ho : ¬ outcome.status.isOptimal = true)
    (hnoted : Noted r₁ r₂) :
    Searched base tol sorted done (restore (switch r₂ window false) committed) committed suspended := by
  obtain ⟨hmarked, htol, hwatched, htrials, -, hsize⟩ := h.tried hsplit hn ha
  obtain ⟨hmore, hlog⟩ := h.grows hsplit hn ha hnoted
  -- the window is switched off again, and the values are those committed
  have hback : Marked base sorted done suspended (restore (switch r₂ window false) committed).system := by
    refine Marked.of_rules ?_ (System.storeValues_sameRules _ committed)
    show Marked base sorted done suspended (r₂.system.setEnabledAll window false)
    rw [hnoted.system]
    exact hmarked.disable fun id hid => ⟨by simp [hsplit, hid], not_mem_of_split hsplit hn id hid⟩
  refine ⟨hback, ?_, hnoted.tolerance.trans htol, h.sublist, ?_, ?_, ?_, ?_⟩
  · exact (congrArg Recorder.watched hnoted.engine).trans hwatched
  · apply System.values_storeValues
    rw [hsize, ← hnoted.system]
    exact (r₂.system.setEnabledAll_sameOutline window false).slots_size.symm
  · show lastGood base.values r₂.engine.trials = committed
    rw [hnoted.engine, htrials, lastGood_append, if_neg ho]
    exact h.good
  · rw [Summary.measure_of_rules (h.marked.sameRules hback)]
    exact h.met
  · intro c hc
    have hmono : Blamed (restore (switch r₂ window false) committed) (done ++ []) (suspended ++ []) c :=
      (h.blamed c hc).mono hmore hlog [] [] (by simp)
    rwa [List.append_nil, List.append_nil] at hmono

/-- A single constraint whose attempt does not end optimally is suspended.  The run before the suspension has the earlier
values, and the flags that make the suspension leave the list marked. -/
theorem Searched.suspend (h : Searched base tol sorted done r committed suspended)
    (hsplit : sorted = done ++ [c] ++ pending) (hn : sorted.Nodup)
    (ha : attempt (switch r [c] true) sorted budget = (r₁, outcome)) (ho : ¬ outcome.status.isOptimal = true)
    (hnoted : Noted r₁ r₂) (hengine : r₃.engine = r₂.engine) (hscope : r₃.scope = r₂.scope)
    (hvalues : r₃.system.values = committed)
    (hmarked : Marked base sorted (done ++ [c]) (suspended ++ [c]) (r₃.system.setEnabledAll [c] false)) :
    Searched base tol sorted (done ++ [c]) (Conflict.suspend r₃ c) committed (suspended ++ [c]) := by
  obtain ⟨-, htol, hwatched, htrials, -, -⟩ := h.tried hsplit hn ha
  obtain ⟨hmore, hlog⟩ := h.grows hsplit hn ha hnoted
  have hnew : c ∉ done := not_mem_of_split hsplit hn c List.mem_cons_self
  have hengine' : (Conflict.suspend r₃ c).engine = r₁.engine := hengine.trans hnoted.engine
  obtain ⟨penalty, hreport⟩ : ∃ penalty, (Conflict.suspend r₃ c).scope.log.toList =
      r₂.scope.log.toList ++ [.constraintSuspended c penalty] := by
    rw [← hscope]
    exact suspend_log r₃ c
  refine ⟨hmarked, hengine' ▸ hwatched, ?_, h.sublist.append (List.Sublist.refl _), ?_, ?_, ?_, ?_⟩
  · exact (congrArg Scope.tolerance hscope).trans (hnoted.tolerance.trans htol)
  · exact (r₃.system.values_setEnabledAll [c] false).trans hvalues
  · rw [hengine', htrials, lastGood_append, if_neg ho]
    exact h.good
  · have hmeasure := Summary.measure_of_rules (h.marked.sameRules (hmarked.forget hnew)) sorted committed
    exact (congrArg Summary.max hmeasure).symm ▸ h.met
  · intro d hd
    rcases List.mem_append.mp hd with hd | hd
    · refine (h.blamed d hd).mono ?_ ?_ [c] [c] (by simpa using hnew)
      · rw [hengine', ← hnoted.engine]
        exact hmore
      · rw [hreport]
        exact hlog.trans (List.prefix_append _ _)
    · -- the attempt that was just made is the one that blames the new constraint
      obtain rfl := List.mem_singleton.mp hd
      refine ⟨_, by rw [hengine', htrials]; exact List.mem_append_right _ (List.mem_singleton.mpr rfl), done, [], rfl,
        fun e => ho (Status.isOptimal_iff.mpr e), ?_, penalty, ?_⟩
      · refine congrArg (· ++ [d]) (List.filter_congr ?_)
        intro id hid
        have : id ≠ d := fun e => hnew (e ▸ hid)
        simp [this]
      · obtain ⟨notes, hnotes, hall⟩ := hnoted.log
        rw [hreport, hnotes, ← Array.length_toList, List.append_assoc, List.drop_left, List.find?_append]
        rw [List.find?_eq_none.mpr (by simpa using hall)]
        rfl

/-! ## The loops -/

theorem addEach_searched (hn : sorted.Nodup) (hsplit : sorted = done ++ pending)
    (h : Searched base tol sorted done r committed suspended) :
    ∃ final, Searched base tol sorted sorted (addEach sorted budget pending r committed suspended).1 final
      (addEach sorted budget pending r committed suspended).2 := by
  fun_induction addEach sorted budget pending r committed suspended generalizing done with
  | case1 r committed suspended =>
    rw [List.append_nil] at hsplit
    exact ⟨committed, hsplit ▸ h⟩
  | case2 id rest r committed suspended r₁ outcome ha ho ih =>
    have hsplit' : sorted = done ++ [id] ++ rest := by simp [hsplit]
    exact ih hsplit' (h.accept hsplit' hn ha ho (.refl r₁))
  | case3 id rest r committed suspended r₁ outcome ha ho ih =>
    have hsplit' : sorted = done ++ [id] ++ rest := by simp [hsplit]
    obtain ⟨hmarked, -, -, -, -, hsize⟩ := h.tried hsplit' hn ha
    refine ih hsplit' (h.suspend hsplit' hn ha ho (.refl r₁) rfl rfl ?_ ?_)
    · exact System.values_storeValues _ hsize
    · exact (hmarked.of_rules (System.storeValues_sameRules _ committed)).suspend (by simp [hsplit])

theorem searchWindows_searched (hn : sorted.Nodup) (others : Nat) (hsplit : sorted = done ++ pending)
    (h : Searched base tol sorted done r committed suspended) :
    ∃ final, Searched base tol sorted sorted (searchWindows sorted budget pending others r committed suspended).1 final
      (searchWindows sorted budget pending others r committed suspended).2 := by
  fun_induction searchWindows sorted budget pending others r committed suspended generalizing done with
  | case1 others r committed suspended =>
    rw [List.append_nil] at hsplit
    exact ⟨committed, hsplit ▸ h⟩
  | case2 others r committed suspended id rest window start r₁ outcome ha r₂ ho =>
    rename_i ih
    have hsplit' : sorted = done ++ window ++ rest.drop others := by simp [hsplit, window]
    exact ih hsplit' (h.accept hsplit' hn ha ho (noted_window r₁ _ _ _))
  | case3 others r committed suspended id rest window start r₁ outcome ha r₂ ho r₃ hw =>
    rename_i ih
    have hsplit' : sorted = done ++ window ++ rest.drop others := by simp [hsplit, window]
    exact ih hsplit (h.reject hsplit' hn ha ho (noted_window r₁ _ _ _))
  | case4 others r committed suspended id rest window start r₁ outcome ha r₂ ho r₃ hw =>
    rename_i ih
    have hone : window = [id] := window_single hw
    have hsplit' : sorted = done ++ [id] ++ rest := by simp [hsplit]
    have hnoted : Noted r₁ r₂ := noted_window r₁ _ _ _
    -- a single constraint that fails is rejected and then suspended
    have hback : Searched base tol sorted done r₃ committed suspended :=
      h.reject (hone ▸ hsplit' : sorted = done ++ window ++ rest) hn ha ho hnoted
    rw [hone] at ha
    refine ih hsplit' (h.suspend hsplit' hn ha ho hnoted rfl rfl hback.values ?_)
    exact (hback.marked.suspend (by simp [hsplit])).grow (by simp)

end Search

/-! ## Suspending from the end -/

section Removing

variable {α ρ : Type} [Scalar α] [Relaxation α ρ] {base : System α} {budget rounds : Nat}
  {sorted suspended : List ConstraintId} {r : Run α ρ}

omit [Relaxation α ρ] in
theorem victim_mem {residuals : Residuals α} {id : ConstraintId} (h : victim? r sorted residuals = some id) :
    id ∈ sorted ∧ r.system.flag? id = some true :=
  System.mem_liveIds.mp (List.mem_reverse.mp (List.mem_of_find?_eq_some h))

omit [Relaxation α ρ] in
theorem Marked.victim_new (h : Marked base sorted sorted suspended r.system) {residuals : Residuals α}
    {id : ConstraintId} (hv : victim? r sorted residuals = some id) : id ∈ sorted ∧ id ∉ suspended := by
  obtain ⟨hid, hflag⟩ := victim_mem hv
  refine ⟨hid, fun hs => ?_⟩
  rw [h.flags, if_pos hid] at hflag
  simp [hs] at hflag

theorem removeRounds_marked [Relaxation.Lawful α ρ] (h : Marked base sorted sorted suspended r.system)
    (hn : suspended.Nodup) (hsub : suspended ⊆ sorted) :
    Marked base sorted sorted (removeRounds sorted budget rounds r suspended).2.suspended
        (removeRounds sorted budget rounds r suspended).1.system ∧
      (removeRounds sorted budget rounds r suspended).2.suspended.Nodup ∧
      (removeRounds sorted budget rounds r suspended).2.suspended ⊆ sorted := by
  fun_induction removeRounds sorted budget rounds r suspended with
  | case1 rounds r suspended r₁ outcome ha ho => exact ⟨h.of_rules (attempt_spec ha).1, hn, hsub⟩
  | case2 r suspended r₁ outcome ha ho id rounds hv ih =>
    have hmarked := h.of_rules (attempt_spec ha).1
    obtain ⟨hid, hnew⟩ := hmarked.victim_new hv
    refine ih (hmarked.suspend hid) ?_ ?_
    · exact List.Nodup.append hn (List.nodup_singleton id) (List.disjoint_singleton.mpr hnew)
    · exact List.append_subset.mpr ⟨hsub, by simpa using hid⟩
  | case3 rounds r suspended r₁ outcome ha ho hnone => exact ⟨h.of_rules (attempt_spec ha).1, hn, hsub⟩

end Removing

/-! ## Results -/

theorem isHopeless_of_outline {α : Type} [Scalar α] {s t : System α} (h : s.SameOutline t) (tol : α) :
    isHopeless t tol = isHopeless s tol := by
  funext id
  have hbare : ∀ u : System α, isHopeless u tol id =
      ((u.constraint? id).map Constraint.bare).any fun c => c.isHard && !c.isSatisfiableAlone tol := by
    intro u
    unfold isHopeless
    cases u.constraint? id <;> rfl
  rw [hbare t, hbare s, h.constraints]

theorem isHopeless_iff {α : Type} [Scalar α] {s : System α} {tol : α} {id : ConstraintId} :
    isHopeless s tol id = true ↔
      ∃ c, s.constraint? id = some c ∧ c.isHard = true ∧ c.isSatisfiableAlone tol = false := by
  unfold isHopeless
  cases s.constraint? id <;> simp

end Conflict

namespace Strategy

open Conflict

variable {α ρ : Type} [Scalar α] [Relaxation α ρ] [Relaxation.Lawful α ρ] {sorted : List ConstraintId}

/-- What the two strategies that build up from nothing find. -/
theorem resolve_searched {strategy : Strategy} (hstrategy : strategy ≠ .removing) {r : Run α (Recorder α ρ)}
    (hn : sorted.Nodup) (henabled : ∀ id ∈ sorted, r.system.flag? id = some true) (htol : 0 < r.scope.tolerance)
    (hwatched : r.engine.watched = sorted) (hnew : r.engine.trials = []) (budget : Nat) :
    let out := strategy.resolve r sorted budget
    (∃ final, Searched r.system r.scope.tolerance sorted sorted out.1 final out.2.suspended) ∧
      out.2.status = if out.2.suspended.any (isHopeless r.system r.scope.tolerance) then .infeasible else .optimal := by
  have hstart := searched_start henabled htol hwatched hnew
  have hsettle : ∀ {r' : Run α (Recorder α ρ)} {suspended final},
      Searched r.system r.scope.tolerance sorted sorted r' final suspended →
      (settle r' suspended .optimal).2.status =
        if suspended.any (isHopeless r.system r.scope.tolerance) then .infeasible else .optimal := by
    intro r' suspended final h
    unfold settle
    simp only [h.tolerance, isHopeless_of_outline h.marked.outline]
  cases strategy with
  | adding =>
    obtain ⟨final, h⟩ := addEach_searched hn (List.nil_append sorted).symm hstart
    exact ⟨⟨final, h⟩, hsettle h⟩
  | removing => exact absurd rfl hstrategy
  | binarySearch =>
    obtain ⟨final, h⟩ := searchWindows_searched hn 0 (List.nil_append sorted).symm hstart
    exact ⟨⟨final, h⟩, hsettle h⟩

/-- **What every strategy does to the flags**: of the list, it disables exactly what it suspends. -/
theorem resolve_marked (strategy : Strategy) {r : Run α ρ} (hn : sorted.Nodup)
    (henabled : ∀ id ∈ sorted, r.system.flag? id = some true) (htol : 0 < r.scope.tolerance) (budget : Nat) :
    let out := strategy.resolve r sorted budget
    Marked r.system sorted sorted out.2.suspended out.1.system ∧ out.2.suspended.Nodup ∧ out.2.suspended ⊆ sorted := by
  by_cases hstrategy : strategy = .removing
  · subst hstrategy
    exact removeRounds_marked (marked_all henabled) List.nodup_nil (List.nil_subset _)
  · obtain ⟨⟨final, h⟩, -⟩ :=
      resolve_searched (r := r.map (Recorder.watch sorted)) hstrategy hn henabled htol rfl rfl budget
    have herase := strategy.resolve_erase (r.map (Recorder.watch sorted)) sorted budget
    rw [show (r.map (Recorder.watch sorted)).map Recorder.engine = r from rfl] at herase
    rw [herase]
    exact ⟨h.marked, hn.sublist h.sublist, h.sublist.subset⟩

/-- **The search for conflicts.**  Adding and binary search split the list into what they keep and what they suspend; the
values are those of the last attempt that ended optimally, and the residuals of what is kept are below the tolerance
there; each suspended constraint was suspended right after an attempt with just the kept ones before it and itself that
did not end optimally; and the result is infeasible exactly when a suspended hard constraint cannot hold at all.  The
attempts are those of the same run under a recorder. -/
theorem resolve_split_spec {γ : Type} [Generator γ] (strategy : Strategy) (hstrategy : strategy ≠ .removing)
    (r : Run α (Engine α γ)) (sorted : List ConstraintId) (budget : Nat) (hn : sorted.Nodup)
    (henabled : ∀ id ∈ sorted, r.system.flag? id = some true) (htol : 0 < r.scope.tolerance) :
    let out := strategy.resolve r sorted budget
    let recorded := strategy.resolve (r.map (Recorder.watch sorted)) sorted budget
    let suspended := out.2.suspended
    let kept := out.1.system.liveIds sorted
    out = (recorded.1.map (·.engine), recorded.2) ∧
    suspended.Sublist sorted ∧ kept = sorted.filter (· ∉ suspended) ∧
    (∀ id ∈ suspended, out.1.system.flag? id = some false) ∧
    (∀ id, id ∉ sorted → out.1.system.flag? id = r.system.flag? id) ∧
    out.1.system.values = lastGood r.system.values recorded.1.engine.trials ∧
    (Summary.measure ((out.1.system.live sorted).map (·.2)) out.1.system.values).max < r.scope.tolerance ∧
    (∀ id ∈ suspended, ∃ t ∈ recorded.1.engine.trials, ∃ before after, sorted = before ++ id :: after ∧
      t.status ≠ .optimal ∧ t.members = before.filter (· ∈ kept) ++ [id] ∧
      ∃ penalty, (out.1.scope.log.toList.drop t.reported).find? (!isNote ·) = some (.constraintSuspended id penalty)) ∧
    (out.2.status = .infeasible ↔ ∃ id ∈ suspended, ∃ c, r.system.constraint? id = some c ∧ c.isHard = true ∧
      c.isSatisfiableAlone r.scope.tolerance = false) := by
  intro out recorded suspended kept
  obtain ⟨⟨final, h⟩, hstatus⟩ :=
    resolve_searched (r := r.map (Recorder.watch sorted)) hstrategy hn henabled htol rfl rfl budget
  have herase : out = (recorded.1.map (·.engine), recorded.2) :=
    strategy.resolve_erase (r.map (Recorder.watch sorted)) sorted budget
  -- all that the invariant says of the run under the recorder holds of the plain one
  have hsystem : out.1.system = recorded.1.system := by rw [herase]; rfl
  have hscope : out.1.scope = recorded.1.scope := by rw [herase]; rfl
  have hsuspended : suspended = recorded.2.suspended := by rw [show suspended = out.2.suspended from rfl, herase]
  have hmarked : Marked r.system sorted sorted suspended out.1.system := by
    rw [hsystem, hsuspended]
    exact h.marked
  have hkept : kept = sorted.filter (· ∉ suspended) := by
    refine hmarked.liveIds_eq.trans (List.filter_congr fun id hid => ?_)
    simp [hid]
  refine ⟨herase, hsuspended ▸ h.sublist, hkept, ?_, ?_, ?_, ?_, ?_, ?_⟩
  · intro id hid
    have hmem : id ∈ sorted := h.sublist.subset (hsuspended ▸ hid)
    rw [hmarked.flags, if_pos hmem]
    simp [hid]
  · intro id hid
    rw [hmarked.flags, if_neg hid]
  · rw [hsystem, h.values]
    exact h.good.symm
  · rw [hsystem, h.values]
    exact h.met
  · intro id hid
    obtain ⟨t, ht, before, after, hsplit, hfailed, hmembers, penalty, hnext⟩ := h.blamed id (hsuspended ▸ hid)
    refine ⟨t, ht, before, after, hsplit, hfailed, hmembers.trans ?_, penalty, hscope ▸ hnext⟩
    -- before `id`, what is kept is what is not suspended
    refine congrArg (· ++ [id]) (List.filter_congr fun other hother => ?_)
    have hmem : other ∈ sorted := by simp [hsplit, hother]
    rw [hkept, ← hsuspended]
    simp [hmem]
  · have hany := List.any_eq_true (l := suspended) (p := isHopeless r.system r.scope.tolerance)
    simp only [isHopeless_iff] at hany
    rw [← hany, show out.2.status = recorded.2.status by rw [herase], hstatus, hsuspended]
    -- the run under the recorder starts from the same system and tolerance
    show (if recorded.2.suspended.any (isHopeless r.system r.scope.tolerance) then Status.infeasible else .optimal) =
      .infeasible ↔ _
    split <;> simp [*]

/-- Two equalities over binary64 that contradict each other: the first is kept and the second suspended. -/
theorem resolve_split_of_contradiction :
    let sum : List (Term Float) := [⟨1, ⟨0, 0⟩⟩]
    let s : System Float := { System.empty 0 with
      slots := #[⟨0, none, [⟨0⟩, ⟨1⟩]⟩]
      attached := [⟨0, 0⟩]
      constraints := #[some (.build sum .eq (.fixed 4)), some (.build sum .eq (.fixed 6))]
      order := [⟨0⟩, ⟨1⟩] }
    let r : Run Float (Engine Float KeyStream) := ⟨.kaczmarz ⟨2, 1, 1, []⟩, s, { tolerance := s.tolerance }⟩
    let out := adding.resolve r [⟨0⟩, ⟨1⟩] 2
    out.2.suspended = [⟨1⟩] ∧ out.1.system.liveIds [⟨0⟩, ⟨1⟩] = [⟨0⟩] := by
  intro sum s r out
  have hsuspended : out.2.suspended = [⟨1⟩] := by decide +kernel
  obtain ⟨-, -, hkept, -⟩ :=
    resolve_split_spec adding (by decide) r [⟨0⟩, ⟨1⟩] 2 (by decide) (by decide) (by decide +kernel)
  refine ⟨hsuspended, hkept.trans ?_⟩
  rw [hsuspended]
  decide

end Strategy

end SoftLinear
