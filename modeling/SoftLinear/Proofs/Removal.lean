import Mathlib.Data.List.Infix
import SoftLinear.Proofs.Agreement

/-!
# Suspending from the end

Removing attempts everything that is enabled, suspends the last constraint that the failed attempt met violated, and
attempts again.  What it does is told by the list of its suspensions:

* `Conflict.attemptAfter` is the attempt that follows given suspensions;
* `Conflict.Removal` says that each suspension is the one that the attempt before it asks for, and `Conflict.Settled` that
  the last attempt asks for none;
* where both hold, the suspensions tell what every run with enough rounds does (`removeRounds_eq`).

A suspension takes up a constraint of the list that was enabled, so there are never more of them than constraints.  Hence
such a list of suspensions exists (`removeRounds_settled`): the loop ends by itself, and further rounds change nothing.
-/

namespace SoftLinear

namespace Conflict

section Choice

variable {α ρ : Type} [Scalar α] {r : Run α ρ} {sorted : List ConstraintId} {residuals : Residuals α}

/-- The constraint to suspend is the last enabled one of the list that was met violated. -/
theorem victim_last {id : ConstraintId} (h : victim? r sorted residuals = some id) :
    ∃ higher lower, sorted = higher ++ id :: lower ∧ r.system.flag? id = some true ∧
      r.scope.tolerance ≤ residuals.of id ∧
      ∀ other ∈ lower, r.system.flag? other = some true → ¬ r.scope.tolerance ≤ residuals.of other := by
  obtain ⟨hviolated, later, earlier, hlive, hlater⟩ := List.find?_eq_some_iff_append.mp h
  have hsplit : sorted.filter (fun id => r.system.flag? id = some true) = earlier.reverse ++ id :: later.reverse := by
    rw [← System.liveIds_eq_filter, ← List.reverse_reverse (r.system.liveIds sorted), hlive]
    simp
  obtain ⟨front, back, rfl, -, hback⟩ := List.filter_eq_append_iff.mp hsplit
  obtain ⟨skipped, lower, rfl, -, hflag, hlower⟩ := List.filter_eq_cons_iff.mp hback
  refine ⟨front ++ skipped, lower, by simp, by simpa using hflag, by simpa using hviolated, ?_⟩
  intro other hother hon
  have hmem : other ∈ later := by
    rw [← List.mem_reverse, ← hlower]
    exact List.mem_filter.mpr ⟨hother, by simpa using hon⟩
  simpa using hlater other hmem

/-- Conversely, an enabled constraint that was met violated is the one to suspend if nothing behind it was. -/
theorem victim_of_last {id : ConstraintId} {higher lower : List ConstraintId} (hsplit : sorted = higher ++ id :: lower)
    (hon : r.system.flag? id = some true) (hviolated : r.scope.tolerance ≤ residuals.of id)
    (hlower : ∀ other ∈ lower, ¬ r.scope.tolerance ≤ residuals.of other) : victim? r sorted residuals = some id := by
  unfold victim?
  rw [List.find?_eq_some_iff_append, System.liveIds_eq_filter, hsplit, List.filter_append,
    List.filter_cons_of_pos (by simpa using hon)]
  refine ⟨by simpa using hviolated, (lower.filter fun id => r.system.flag? id = some true).reverse,
    (higher.filter fun id => r.system.flag? id = some true).reverse, by simp, ?_⟩
  intro other hother
  have hmem : other ∈ lower := List.mem_of_mem_filter (List.mem_reverse.mp hother)
  simpa using hlower other hmem

theorem victim_none (h : victim? r sorted residuals = none) :
    ∀ id ∈ sorted, r.system.flag? id = some true → ¬ r.scope.tolerance ≤ residuals.of id := by
  intro id hid hon
  have hmem : id ∈ (r.system.liveIds sorted).reverse := List.mem_reverse.mpr (System.mem_liveIds.mpr ⟨hid, hon⟩)
  simpa using List.find?_eq_none.mp h id hmem

end Choice

section Rounds

variable {α ρ : Type} [Scalar α] [Relaxation α ρ] (sorted : List ConstraintId) (budget : Nat)

/-- Attempts and suspends, once for each constraint of a list. -/
def suspendEach (r : Run α ρ) (gone : List ConstraintId) : Run α ρ :=
  gone.foldl (fun r id => suspend (attempt r sorted budget).1 id) r

/-- The attempt that follows some suspensions. -/
def attemptAfter (r : Run α ρ) (gone : List ConstraintId) : Run α ρ × Outcome α :=
  attempt (suspendEach sorted budget r gone) sorted budget

theorem suspendEach_concat (r : Run α ρ) (gone : List ConstraintId) (id : ConstraintId) :
    suspendEach sorted budget r (gone ++ [id]) = suspend (attemptAfter sorted budget r gone).1 id :=
  List.foldl_append

omit [Relaxation α ρ] in
/-- The constraint that a finished attempt asks to be suspended, if there is one. -/
def asks? (x : Run α ρ × Outcome α) : Option ConstraintId :=
  if x.2.status.isOptimal then none else victim? x.1 sorted x.2.residuals

/-- Each suspension is the one that the attempt before it asks for. -/
def Removal (r : Run α ρ) (gone : List ConstraintId) : Prop :=
  ∀ before id after, gone = before ++ id :: after → asks? sorted (attemptAfter sorted budget r before) = some id

/-- After the suspensions nothing more is to be suspended. -/
def Settled (r : Run α ρ) (gone : List ConstraintId) : Prop := asks? sorted (attemptAfter sorted budget r gone) = none

variable {sorted budget} {r : Run α ρ} {gone : List ConstraintId} {id : ConstraintId}

omit [Relaxation α ρ] in
theorem asks_eq_some {x : Run α ρ × Outcome α} :
    asks? sorted x = some id ↔ x.2.status ≠ .optimal ∧ victim? x.1 sorted x.2.residuals = some id := by
  unfold asks?
  split
  · rename_i ho
    simp [Status.isOptimal_iff.mp ho]
  · rename_i ho
    simp [mt Status.isOptimal_iff.mpr ho]

theorem removeRounds_of_some (h : asks? sorted (attempt r sorted budget) = some id) (rounds : Nat)
    (suspended : List ConstraintId) :
    removeRounds sorted budget (rounds + 1) r suspended =
      removeRounds sorted budget rounds (suspend (attempt r sorted budget).1 id) (suspended ++ [id]) := by
  obtain ⟨ho, hv⟩ := asks_eq_some.mp h
  rw [removeRounds]
  simp only [Status.isOptimal_iff, ho, if_false, hv]

theorem removeRounds_of_none (h : asks? sorted (attempt r sorted budget) = none) (rounds : Nat)
    (suspended : List ConstraintId) :
    removeRounds sorted budget rounds r suspended =
      settle (attempt r sorted budget).1 suspended (attempt r sorted budget).2.status := by
  rw [removeRounds]
  unfold asks? at h
  split at h
  · rename_i ho
    simp only [ho, if_true]
  · rename_i ho
    simp only [ho, h]
    rfl

theorem removal_nil (r : Run α ρ) : Removal sorted budget r [] := by
  intro before id after h
  simp at h

theorem removal_cons : Removal sorted budget r (id :: gone) ↔
    asks? sorted (attempt r sorted budget) = some id ∧
      Removal sorted budget (suspend (attempt r sorted budget).1 id) gone := by
  constructor
  · intro h
    refine ⟨h [] id gone rfl, ?_⟩
    intro before other after hsplit
    exact h (id :: before) other after (by rw [hsplit]; rfl)
  · rintro ⟨hfirst, hrest⟩ before other after hsplit
    cases before with
    | nil =>
      obtain ⟨rfl, -⟩ := List.cons.inj hsplit
      exact hfirst
    | cons first before =>
      obtain ⟨rfl, hbehind⟩ := List.cons.inj hsplit
      exact hrest before other after hbehind

theorem Removal.shorter {earlier : List ConstraintId} (h : Removal sorted budget r gone) (hle : earlier <+: gone) :
    Removal sorted budget r earlier := by
  obtain ⟨later, rfl⟩ := hle
  intro before id after hsplit
  exact h before id (after ++ later) (by simp [hsplit])

/-- One can suspend what the attempts ask for until they ask for nothing, or for a number of rounds. -/
theorem exists_removal (sorted : List ConstraintId) (budget rounds : Nat) (r : Run α ρ) :
    ∃ gone, Removal sorted budget r gone ∧ gone.length ≤ rounds ∧
      (Settled sorted budget r gone ∨ gone.length = rounds) := by
  induction rounds generalizing r with
  | zero => exact ⟨[], removal_nil r, le_rfl, .inr rfl⟩
  | succ rounds ih =>
    cases hasks : asks? sorted (attempt r sorted budget) with
    | none => exact ⟨[], removal_nil r, Nat.zero_le _, .inl hasks⟩
    | some id =>
      obtain ⟨gone, hgone, hle, hend⟩ := ih (suspend (attempt r sorted budget).1 id)
      refine ⟨id :: gone, removal_cons.mpr ⟨hasks, hgone⟩, Nat.succ_le_succ hle, ?_⟩
      exact hend.imp_right (congrArg (· + 1))

/-- A run with enough rounds is told by its suspensions. -/
theorem removeRounds_eq (h : Removal sorted budget r gone) (hend : Settled sorted budget r gone) {rounds : Nat}
    (hrounds : gone.length ≤ rounds) (suspended : List ConstraintId) :
    removeRounds sorted budget rounds r suspended =
      settle (attemptAfter sorted budget r gone).1 (suspended ++ gone)
        (attemptAfter sorted budget r gone).2.status := by
  induction gone generalizing r rounds suspended with
  | nil =>
    have hnone : asks? sorted (attempt r sorted budget) = none := hend
    rw [removeRounds_of_none hnone, List.append_nil]
    rfl
  | cons id gone ih =>
    obtain ⟨hasks, hgone⟩ := removal_cons.mp h
    obtain ⟨rounds, rfl⟩ : ∃ n, rounds = n + 1 := ⟨rounds - 1, by simp at hrounds; omega⟩
    rw [removeRounds_of_some hasks, ih hgone hend (by simpa using hrounds), List.append_assoc]
    rfl

end Rounds

/-! ## Flags -/

section Flags

variable {α ρ : Type} [Scalar α] [Relaxation α ρ] [Relaxation.Lawful α ρ] {sorted : List ConstraintId} {budget : Nat}
  {r : Run α ρ} {gone : List ConstraintId}

/-- What is known between two rounds. -/
structure Suspended (sorted : List ConstraintId) (base r : Run α ρ) (gone : List ConstraintId) : Prop where
  marked : Marked base.system sorted sorted gone r.system
  tolerance : r.scope.tolerance = base.scope.tolerance
  nodup : gone.Nodup
  subset : gone ⊆ sorted

theorem Suspended.attempt {base : Run α ρ} (h : Suspended sorted base r gone) (budget : Nat) :
    Suspended sorted base (Conflict.attempt r sorted budget).1 gone := by
  obtain ⟨hrules, hscope, -⟩ := attempt_spec (Prod.mk.eta (p := Conflict.attempt r sorted budget)).symm
  exact ⟨h.marked.of_rules hrules, hscope.tolerance.trans h.tolerance, h.nodup, h.subset⟩

theorem Removal.suspended (h : Removal sorted budget r gone) (henabled : ∀ id ∈ sorted, r.system.flag? id = some true) :
    Suspended sorted r (suspendEach sorted budget r gone) gone := by
  induction gone using List.reverseRecOn with
  | nil => exact ⟨marked_all henabled, rfl, List.nodup_nil, List.nil_subset _⟩
  | append_singleton gone id ih =>
    have hafter : Suspended sorted r (attemptAfter sorted budget r gone).1 gone := (ih (h.shorter (List.prefix_append _ _))).attempt budget
    obtain ⟨-, hv⟩ := asks_eq_some.mp (h gone id [] rfl)
    obtain ⟨hid, hnew⟩ := hafter.marked.victim_new hv
    rw [suspendEach_concat]
    refine ⟨hafter.marked.suspend hid, hafter.tolerance, ?_, ?_⟩
    · exact List.Nodup.append hafter.nodup (List.nodup_singleton id) (List.disjoint_singleton.mpr hnew)
    · exact List.append_subset.mpr ⟨hafter.subset, by simpa using hid⟩

theorem Removal.attempted (h : Removal sorted budget r gone) (henabled : ∀ id ∈ sorted, r.system.flag? id = some true) :
    Suspended sorted r (attemptAfter sorted budget r gone).1 gone := (h.suspended henabled).attempt budget

omit [Scalar α] [Relaxation α ρ] [Relaxation.Lawful α ρ] in
theorem Suspended.liveIds_eq {base : Run α ρ} (h : Suspended sorted base r gone) :
    r.system.liveIds sorted = sorted.filter (· ∉ gone) := by
  refine h.marked.liveIds_eq.trans (List.filter_congr fun id hid => ?_)
  simp [hid]

omit [Scalar α] [Relaxation α ρ] [Relaxation.Lawful α ρ] in
theorem Suspended.length_le {base : Run α ρ} (h : Suspended sorted base r gone) : gone.length ≤ sorted.length :=
  (List.subperm_of_subset h.nodup h.subset).length_le

/-- When as many constraints are suspended as there are, none is left that could be asked for. -/
theorem Removal.settled_of_length (h : Removal sorted budget r gone)
    (henabled : ∀ id ∈ sorted, r.system.flag? id = some true) (hlen : sorted.length ≤ gone.length) :
    Settled sorted budget r gone := by
  have hafter := h.attempted henabled
  have hall : sorted ⊆ gone :=
    ((List.subperm_of_subset hafter.nodup hafter.subset).perm_of_length_le hlen).symm.subset
  have hlive : (attemptAfter sorted budget r gone).1.system.liveIds sorted = [] := by
    rw [hafter.liveIds_eq]
    exact List.filter_eq_nil_iff.mpr fun id hid => by simp [hall hid]
  unfold Settled asks? victim?
  rw [hlive]
  simp

/-- **The loop ends by itself**: as many rounds as there are constraints are enough, and more change nothing. -/
theorem removeRounds_settled (r : Run α ρ) (sorted : List ConstraintId) (budget : Nat)
    (henabled : ∀ id ∈ sorted, r.system.flag? id = some true) :
    ∃ gone, Removal sorted budget r gone ∧ Settled sorted budget r gone ∧ ∀ rounds, sorted.length ≤ rounds →
      removeRounds sorted budget rounds r [] =
        settle (attemptAfter sorted budget r gone).1 gone (attemptAfter sorted budget r gone).2.status := by
  obtain ⟨gone, hgone, hle, hend⟩ := exists_removal sorted budget sorted.length r
  have hsettled : Settled sorted budget r gone := by
    rcases hend with hend | hlen
    · exact hend
    · exact hgone.settled_of_length henabled hlen.ge
  exact ⟨gone, hgone, hsettled, fun rounds hrounds => removeRounds_eq hgone hsettled (hle.trans hrounds) []⟩

end Flags

/-! ## Records -/

section Records

variable {α ρ : Type} [Scalar α] [Relaxation α ρ] {sorted : List ConstraintId} {budget : Nat}
  {r : Run α (Recorder α ρ)} {gone : List ConstraintId}

theorem suspendEach_erase (r : Run α (Recorder α ρ)) (gone : List ConstraintId) :
    suspendEach sorted budget (r.map Recorder.engine) gone = (suspendEach sorted budget r gone).map Recorder.engine := by
  induction gone generalizing r with
  | nil => rfl
  | cons id gone ih => exact ih (suspend (attempt r sorted budget).1 id)

theorem attemptAfter_erase (r : Run α (Recorder α ρ)) (gone : List ConstraintId) :
    attemptAfter sorted budget (r.map Recorder.engine) gone = unrecorded (attemptAfter sorted budget r gone) := by
  unfold attemptAfter
  rw [suspendEach_erase]
  rfl

theorem removal_erase : Removal sorted budget (r.map Recorder.engine) gone ↔ Removal sorted budget r gone := by
  unfold Removal
  simp only [attemptAfter_erase]
  rfl

theorem settled_erase : Settled sorted budget (r.map Recorder.engine) gone ↔ Settled sorted budget r gone := by
  unfold Settled
  rw [attemptAfter_erase]
  rfl

/-- The record of the attempt that follows some suspensions. -/
def trialAfter {ρ : Type} [Relaxation α ρ] (sorted : List ConstraintId) (budget : Nat) (r : Run α ρ)
    (gone : List ConstraintId) : Trial α :=
  let x := attemptAfter sorted budget r gone
  ⟨(suspendEach sorted budget r gone).system.liveIds sorted, x.2.status, x.1.system.values, x.1.scope.log.size⟩

theorem trialAfter_erase (r : Run α (Recorder α ρ)) (gone : List ConstraintId) :
    trialAfter sorted budget (r.map Recorder.engine) gone = trialAfter sorted budget r gone := by
  unfold trialAfter
  rw [attemptAfter_erase, suspendEach_erase]
  rfl

theorem attemptAfter_trials [Relaxation.KeepsRules α ρ] (budget : Nat) (hwatched : r.engine.watched = sorted)
    (gone : List ConstraintId) :
    (attemptAfter sorted budget r gone).1.engine.watched = sorted ∧
      (attemptAfter sorted budget r gone).1.engine.trials =
        r.engine.trials ++ gone.inits.map (trialAfter sorted budget r) := by
  induction gone using List.reverseRecOn with
  | nil =>
    obtain ⟨hkept, htrials⟩ := attempt_trials (Prod.mk.eta (p := attemptAfter sorted budget r [])).symm
    rw [show (suspendEach sorted budget r []).engine = r.engine from rfl, hwatched] at hkept htrials
    exact ⟨hkept, htrials⟩
  | append_singleton gone id ih =>
    obtain ⟨hkept, htrials⟩ := attempt_trials (Prod.mk.eta (p := attemptAfter sorted budget r (gone ++ [id]))).symm
    have hengine : (suspendEach sorted budget r (gone ++ [id])).engine = (attemptAfter sorted budget r gone).1.engine := by
      rw [suspendEach_concat]
      rfl
    rw [hengine, ih.1] at hkept htrials
    refine ⟨hkept, htrials.trans ?_⟩
    rw [ih.2, List.inits_append, List.map_append, List.append_assoc]
    rfl

end Records

end Conflict

namespace Strategy

open Conflict

theorem removing_trials {α ρ : Type} [Scalar α] [Relaxation α ρ] [Relaxation.KeepsRules α ρ] {r : Run α ρ}
    {sorted gone : List ConstraintId} {budget : Nat} (hgone : Removal sorted budget r gone)
    (hsettled : Settled sorted budget r gone) (hlen : gone.length ≤ sorted.length) :
    removing.trials r sorted budget = gone.inits.map (trialAfter sorted budget r) := by
  have hrun := removeRounds_eq (r := r.map (Recorder.watch sorted)) (removal_erase.mp hgone)
    (settled_erase.mp hsettled) hlen []
  have htrials := (attemptAfter_trials (r := r.map (Recorder.watch sorted)) budget rfl gone).2
  rw [← funext (trialAfter_erase (r.map (Recorder.watch sorted)))] at htrials
  exact (congrArg (fun x => x.1.engine.trials) hrun).trans htrials

/-- **Removing.**  The loop ends by itself: rounds beyond the number of constraints change nothing.  It makes one attempt
more than it suspends constraints, each with those of the list that are not suspended yet; what it suspends are different
constraints of the list, and the others stay enabled.  Each suspended constraint is the last one of the list that was
still enabled and that the failed attempt before it met violated.  If the last attempt ended optimally, the residuals of
what is left are below the tolerance at its values; if not, it met none of them violated. -/
theorem removing_resolve_spec {α γ : Type} [Scalar α] [Generator γ] (r : Run α (Engine α γ))
    (sorted : List ConstraintId) (budget : Nat) (henabled : ∀ id ∈ sorted, r.system.flag? id = some true) :
    let out := removing.resolve r sorted budget
    let made := removing.trials r sorted budget
    let suspended := out.2.suspended
    let sub := attemptAfter sorted budget r
    let tol := r.scope.tolerance
    (∀ rounds, sorted.length ≤ rounds → removeRounds sorted budget rounds r [] = out) ∧
    made = suspended.inits.map (fun gone => ⟨sorted.filter (· ∉ gone), (sub gone).2.status, (sub gone).1.system.values,
      (sub gone).1.scope.log.size⟩) ∧
    made.length = suspended.length + 1 ∧ suspended.length ≤ sorted.length ∧
    suspended.Nodup ∧ suspended ⊆ sorted ∧ out.1.system.liveIds sorted = sorted.filter (· ∉ suspended) ∧
    (∀ id ∈ suspended, out.1.system.flag? id = some false) ∧
    (∀ id, id ∉ sorted → out.1.system.flag? id = r.system.flag? id) ∧
    (∀ before id after, suspended = before ++ id :: after → (sub before).2.status ≠ .optimal ∧
      ∃ higher lower, sorted = higher ++ id :: lower ∧ (sub before).1.system.flag? id = some true ∧
        tol ≤ (sub before).2.residuals.of id ∧ ∀ other ∈ lower, (sub before).1.system.flag? other = some true →
          ¬ tol ≤ (sub before).2.residuals.of other) ∧
    out.1 = (sub suspended).1 ∧
    ((sub suspended).2.status = .optimal →
      (Summary.measure ((out.1.system.live sorted).map (·.2)) out.1.system.values).max < tol) ∧
    ((sub suspended).2.status ≠ .optimal → ∀ id ∈ sorted, out.1.system.flag? id = some true →
      ¬ tol ≤ (sub suspended).2.residuals.of id) := by
  intro out made suspended sub tol
  obtain ⟨gone, hgone, hsettled, hruns⟩ := removeRounds_settled r sorted budget henabled
  have hout : out = settle (sub gone).1 gone (sub gone).2.status := hruns sorted.length le_rfl
  obtain rfl : suspended = gone := congrArg (fun x => x.2.suspended) hout
  have hlast : out.1 = (sub suspended).1 := congrArg Prod.fst hout
  have hafter : Suspended sorted r out.1 suspended := hlast ▸ hgone.attempted henabled
  have hmade : made = suspended.inits.map (trialAfter sorted budget r) :=
    removing_trials hgone hsettled hafter.length_le
  refine ⟨fun rounds hrounds => (hruns rounds hrounds).trans hout.symm, ?_, ?_, hafter.length_le, hafter.nodup,
    hafter.subset, hafter.liveIds_eq, ?_, ?_, ?_, hlast, ?_, ?_⟩
  · -- one attempt for each prefix of what is suspended, with what is still enabled there
    refine hmade.trans (List.map_congr_left fun before hbefore => ?_)
    have hbetween := (hgone.shorter ((List.mem_inits before suspended).mp hbefore)).suspended henabled
    exact congrArg (fun members => (⟨members, _, _, _⟩ : Trial α)) hbetween.liveIds_eq
  · rw [hmade, List.length_map, List.length_inits]
  · intro id hid
    rw [hafter.marked.flags, if_pos (hafter.subset hid)]
    simp [hid]
  · intro id hid
    rw [hafter.marked.flags, if_neg hid]
  · intro before id after hsplit
    -- the constraint was suspended because the attempt before it failed and named it
    obtain ⟨hfailed, hv⟩ := asks_eq_some.mp (hgone before id after hsplit)
    have hbefore := (hgone.shorter ⟨id :: after, hsplit.symm⟩).attempted henabled
    have hchosen := victim_last hv
    rw [hbefore.tolerance] at hchosen
    exact ⟨hfailed, hchosen⟩
  · intro ho
    -- the residuals of the last attempt are measured at the values it left
    have hmax := (attempt_spec (Prod.mk.eta (p := sub suspended)).symm).2.2 (Status.isOptimal_iff.mpr ho)
    rw [(hgone.suspended henabled).tolerance] at hmax
    rw [hlast]
    exact hmax
  · intro ho
    -- the loop asked for no further constraint although the attempt had failed
    have hnone : victim? (sub suspended).1 sorted (sub suspended).2.residuals = none := by
      have hasks : asks? sorted (sub suspended) = none := hsettled
      rwa [asks?, if_neg (mt Status.isOptimal_iff.mp ho)] at hasks
    have hmet := victim_none hnone
    rw [(hgone.attempted henabled).tolerance] at hmet
    rw [hlast]
    exact hmet

/-- Three equalities over binary64 that contradict each other: the last two are suspended, the last one first, and the
third attempt ends optimally. -/
theorem removing_resolve_of_contradictions :
    let sum : List (Term Float) := [⟨1, ⟨0, 0⟩⟩]
    let s : System Float := { System.empty 0 with
      slots := #[⟨0, none, [⟨0⟩, ⟨1⟩, ⟨2⟩]⟩]
      attached := [⟨0, 0⟩]
      constraints := #[some (.build sum .eq (.fixed 4)), some (.build sum .eq (.fixed 6)),
        some (.build sum .eq (.fixed 9))]
      order := [⟨0⟩, ⟨1⟩, ⟨2⟩] }
    let r : Run Float (Engine Float KeyStream) := ⟨.kaczmarz ⟨2, 1, 1, []⟩, s, { tolerance := s.tolerance }⟩
    (removing.resolve r [⟨0⟩, ⟨1⟩, ⟨2⟩] 2).2.suspended = [⟨2⟩, ⟨1⟩] ∧
      (removing.trials r [⟨0⟩, ⟨1⟩, ⟨2⟩] 2).length = 3 := by
  intro sum s r
  have hsuspended : (removing.resolve r [⟨0⟩, ⟨1⟩, ⟨2⟩] 2).2.suspended = [⟨2⟩, ⟨1⟩] := by decide +kernel
  obtain ⟨-, -, hcount, -⟩ := removing_resolve_spec r [⟨0⟩, ⟨1⟩, ⟨2⟩] 2 (by decide)
  exact ⟨hsuspended, hcount.trans (congrArg (·.length + 1) hsuspended)⟩

end Strategy

end SoftLinear
