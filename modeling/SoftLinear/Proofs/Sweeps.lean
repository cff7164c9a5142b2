import Mathlib.Logic.Function.Iterate
import SoftLinear.Proofs.Outline
import SoftLinear.Proofs.ScalarOrder
import SoftLinear.Relaxation.Basic

/-!
# Runs of sweeps

What all relaxations have in common.  A sweep moves the point and then measures it (`Progress.IsSweep`), so the state
after `k` sweeps is the `k`-th iterate of the sweep, and a run is such an iterate up to the point where it stops.

* `Progress.Halts` says after how many sweeps a run stops and why, `Progress.iterate_halts` that every run does;
* `Progress.Tracked` is what holds between any two sweeps: the summary is that of the point and the log goes on;
* `Progress.SameSweep` compares sweeps under two budgets: they differ in the checkpoint only;
* `Course` is a relaxation before its budget is known, and `Course.Sound.state_spec` says what each of its runs reports
  and remembers.
-/

namespace SoftLinear

variable {α : Type} [Scalar α]

/-! ## Summaries -/

namespace Summary

theorem foldl_add_max (p : Point α) (cs : List (Constraint α)) (s : Summary α) :
    (cs.foldl (add p) s).max = cs.foldl (fun acc c => Scalar.larger acc (Scalar.abs (c.error p))) s.max := by
  induction cs generalizing s with
  | nil => rfl
  | cons c cs ih => exact ih _

theorem foldl_add_hard (p : Point α) (cs : List (Constraint α)) (s : Summary α) :
    (cs.foldl (add p) s).hard =
      (cs.filter (·.isHard)).foldl (fun acc c => Scalar.larger acc (Scalar.abs (c.error p))) s.hard := by
  induction cs generalizing s with
  | nil => rfl
  | cons c cs ih =>
    rw [List.foldl_cons, ih, List.filter_cons]
    cases h : c.isHard <;> simp [add, h]

theorem measure_max (cs : List (Constraint α)) (p : Point α) : (measure cs p).max = System.worst cs p :=
  foldl_add_max p cs zero

theorem measure_hard (cs : List (Constraint α)) (p : Point α) :
    (measure cs p).hard = System.worst (cs.filter (·.isHard)) p :=
  foldl_add_hard p cs zero

theorem measure_bare (cs : List (Constraint α)) (p : Point α) : measure (cs.map Constraint.bare) p = measure cs p := by
  unfold measure
  rw [List.foldl_map]
  rfl

end Summary

/-! ## Reports -/

/-- The number of a reported sweep and the hard residual after it. -/
def Event.sweepReport? : Event α → Option (Nat × α)
  | sweepEnded sweep _ hard _ => some (sweep, hard)
  | _ => none

def sweepReports (log : Array (Event α)) : List (Nat × α) := log.toList.filterMap Event.sweepReport?

omit [Scalar α] in
theorem sweepReports_push (log : Array (Event α)) (e : Event α) :
    sweepReports (log.push e) = sweepReports log ++ e.sweepReport?.toList := by
  unfold sweepReports
  rw [Array.toList_push, List.filterMap_append]
  cases h : e.sweepReport? <;> simp [h]

namespace Progress

/-! ## When a run stops -/

/-- A run under a budget of `n` stops after `k` sweeps: up to there some residual is not below the tolerance and nothing
has settled; then the budget is used up, or all residuals are below the tolerance, or the last sweep has settled. -/
structure Halts (sweep : Progress α → Progress α) (settled : Progress α → Progress α → Bool) (n : Nat)
    (p : Progress α) (k : Nat) : Prop where
  within : k ≤ n
  unmet : ∀ j < k, (sweep^[j] p).scope.tolerance ≤ (sweep^[j] p).summary.max
  unsettled : ∀ j, j + 1 < k → settled (sweep^[j] p) (sweep^[j + 1] p) = false
  reason : k = n ∨ ¬ (sweep^[k] p).scope.tolerance ≤ (sweep^[k] p).summary.max ∨
    ∃ j, k = j + 1 ∧ settled (sweep^[j] p) (sweep^[j + 1] p) = true

variable {sweep : Progress α → Progress α} {settled : Progress α → Progress α → Bool} {n k : Nat} {p : Progress α}

theorem Halts.succ (hmax : p.scope.tolerance ≤ p.summary.max) (hs : settled p (sweep p) = false)
    (h : Halts sweep settled n (sweep p) k) : Halts sweep settled (n + 1) p (k + 1) where
  within := by have := h.within; omega
  unmet j hj := by
    cases j with
    | zero => exact hmax
    | succ j => exact h.unmet j (by omega)
  unsettled j hj := by
    cases j with
    | zero => exact hs
    | succ j => exact h.unsettled j (by omega)
  reason := by
    rcases h.reason with hk | hk | ⟨j, hj, hk⟩
    · exact .inl (by omega)
    · exact .inr (.inl hk)
    · exact .inr (.inr ⟨j + 1, by omega, hk⟩)

theorem iterate_halts (sweep : Progress α → Progress α) (settled : Progress α → Progress α → Bool) (n : Nat)
    (p : Progress α) : ∃ k, Halts sweep settled n p k ∧ iterate sweep settled n p = sweep^[k] p := by
  induction n generalizing p with
  | zero => exact ⟨0, ⟨le_rfl, by simp, by simp, .inl rfl⟩, rfl⟩
  | succ n ih =>
    by_cases hmax : p.scope.tolerance ≤ p.summary.max
    · cases hs : settled p (sweep p) with
      | true =>
        refine ⟨1, ⟨by omega, ?_, by omega, .inr (.inr ⟨0, rfl, hs⟩)⟩, ?_⟩
        · intro j hj
          obtain rfl : j = 0 := by omega
          exact hmax
        · simp [iterate, hmax, hs]
      | false =>
        obtain ⟨k, hk, he⟩ := ih (sweep p)
        refine ⟨k + 1, hk.succ hmax hs, ?_⟩
        simp [iterate, hmax, hs, he]
    · exact ⟨0, ⟨by omega, by simp, by simp, .inr (.inl hmax)⟩, by simp [iterate, hmax]⟩

/-- A run that does not stop before its `k`-th sweep is, under a budget of `k`, at the state after that sweep. -/
theorem iterate_eq_of_lasts (hmax : ∀ j < k, (sweep^[j] p).scope.tolerance ≤ (sweep^[j] p).summary.max)
    (hs : ∀ j, j + 1 < k → settled (sweep^[j] p) (sweep^[j + 1] p) = false) :
    iterate sweep settled k p = sweep^[k] p := by
  obtain ⟨i, hi, he⟩ := iterate_halts sweep settled k p
  rw [he]
  rcases hi.reason with rfl | hend | ⟨j, rfl, hend⟩
  · rfl
  · by_cases hik : i < k
    · exact absurd (hmax i hik) hend
    · rw [le_antisymm hi.within (by omega)]
  · by_cases hik : j + 1 < k
    · rw [hs j hik] at hend; cases hend
    · rw [le_antisymm hi.within (by omega)]

/-! ## What a sweep does -/

/-- The second state comes from the first by moves of the point: nothing is measured or reported. -/
structure Moved (p q : Progress α) : Prop where
  size : q.point.size = p.point.size
  sweeps : q.sweeps = p.sweeps
  checkpoint : q.checkpoint = p.checkpoint
  tolerance : q.scope.tolerance = p.scope.tolerance
  log : q.scope.log = p.scope.log

omit [Scalar α] in
theorem Moved.refl (p : Progress α) : Moved p p := ⟨rfl, rfl, rfl, rfl, rfl⟩

omit [Scalar α] in
theorem Moved.trans {p q r : Progress α} (h : Moved p q) (k : Moved q r) : Moved p r :=
  ⟨k.size.trans h.size, k.sweeps.trans h.sweeps, k.checkpoint.trans h.checkpoint, k.tolerance.trans h.tolerance,
    k.log.trans h.log⟩

omit [Scalar α] in
theorem foldl_moved {β : Type} {f : Progress α → β → Progress α} (hf : ∀ p x, Moved p (f p x)) (l : List β)
    (p : Progress α) : Moved p (l.foldl f p) := by
  induction l generalizing p with
  | nil => exact .refl p
  | cons x l ih => exact (hf p x).trans (ih _)

/-- The sweep that moves the point in some way, then measures the constraints there and reports. -/
def sweepOf (move : Progress α → Progress α) (soft : Summary α → Option α) (cs : List (Constraint α)) (budget : Nat)
    (p : Progress α) : Progress α :=
  ((move p).close cs budget).announce (soft ((move p).close cs budget).summary)

/-- A sweep over constraints: it moves the point, then measures the constraints there and reports. -/
def IsSweep (cs : List (Constraint α)) (budget : Nat) (sweep : Progress α → Progress α) : Prop :=
  ∀ p, ∃ q soft, Moved p q ∧ sweep p = (q.close cs budget).announce soft

theorem sweepOf_isSweep {move : Progress α → Progress α} (hm : ∀ p, Moved p (move p)) (soft : Summary α → Option α)
    (cs : List (Constraint α)) (budget : Nat) : IsSweep cs budget (sweepOf move soft cs budget) :=
  fun p => ⟨move p, _, hm p, rfl⟩

/-- What holds between any two sweeps of a run that began at `base`. -/
structure Tracked (cs : List (Constraint α)) (base p : Progress α) : Prop where
  summary : p.summary = Summary.measure cs p.point
  size : p.point.size = base.point.size
  tolerance : p.scope.tolerance = base.scope.tolerance
  log : base.scope.log.toList <+: p.scope.log.toList

section Sweep

variable {cs : List (Constraint α)} {budget : Nat} {base : Progress α}

theorem IsSweep.tracked (h : IsSweep cs budget sweep) (ht : Tracked cs base p) : Tracked cs base (sweep p) := by
  obtain ⟨q, soft, hq, he⟩ := h p
  rw [he]
  refine ⟨rfl, hq.size.trans ht.size, hq.tolerance.trans ht.tolerance, ?_⟩
  refine ht.log.trans ?_
  simp [announce, close, Scope.report, hq.log]

theorem IsSweep.tracked_iterate (h : IsSweep cs budget sweep) (ht : Tracked cs base p) (k : Nat) :
    Tracked cs base (sweep^[k] p) := by
  induction k with
  | zero => exact ht
  | succ k ih =>
    rw [Function.iterate_succ_apply']
    exact h.tracked ih

theorem IsSweep.sweeps_eq (h : IsSweep cs budget sweep) (p : Progress α) : (sweep p).sweeps = p.sweeps + 1 := by
  obtain ⟨q, soft, hq, he⟩ := h p
  rw [he]
  simp [announce, close, hq.sweeps]

theorem IsSweep.sweeps_iterate (h : IsSweep cs budget sweep) (p : Progress α) (k : Nat) :
    (sweep^[k] p).sweeps = p.sweeps + k := by
  induction k with
  | zero => rfl
  | succ k ih => rw [Function.iterate_succ_apply', h.sweeps_eq, ih, Nat.add_assoc]

theorem IsSweep.reports_eq (h : IsSweep cs budget sweep) (p : Progress α) :
    sweepReports (sweep p).scope.log = sweepReports p.scope.log ++ [(p.sweeps + 1, (sweep p).summary.hard)] := by
  obtain ⟨q, soft, hq, he⟩ := h p
  rw [he]
  simp [announce, close, Scope.report, sweepReports_push, Event.sweepReport?, hq.log, hq.sweeps]

/-- **The log of a run** has one report for each sweep, with the hard residual after it. -/
theorem IsSweep.reports_iterate (h : IsSweep cs budget sweep) (hp : p.sweeps = 0) (k : Nat) :
    sweepReports (sweep^[k] p).scope.log =
      sweepReports p.scope.log ++ (List.range k).map fun j => (j + 1, (sweep^[j + 1] p).summary.hard) := by
  induction k with
  | zero => simp
  | succ k ih =>
    rw [Function.iterate_succ_apply', h.reports_eq, ih, h.sweeps_iterate, hp, List.range_succ, List.map_append,
      List.append_assoc, Nat.zero_add]
    simp [Function.iterate_succ_apply']

theorem IsSweep.checkpoint_eq (h : IsSweep cs budget sweep) (p : Progress α) :
    (sweep p).checkpoint =
      p.checkpoint.or (if budget / 2 ≤ p.sweeps + 1 then some (sweep p).summary.hard else none) := by
  obtain ⟨q, soft, hq, he⟩ := h p
  rw [he]
  simp [announce, close, hq.checkpoint, hq.sweeps]

/-- **The checkpoint of a run** is the hard residual after the sweep at half of the budget, or after the first one. -/
theorem IsSweep.checkpoint_iterate (h : IsSweep cs budget sweep) (hp : p.sweeps = 0) (hc : p.checkpoint = none)
    (k : Nat) : (sweep^[k] p).checkpoint =
      if max 1 (budget / 2) ≤ k then some (sweep^[max 1 (budget / 2)] p).summary.hard else none := by
  induction k with
  | zero => rw [if_neg (by omega)]; exact hc
  | succ k ih =>
    rw [Function.iterate_succ_apply', h.checkpoint_eq, ih, h.sweeps_iterate, hp, Nat.zero_add]
    by_cases hk : max 1 (budget / 2) ≤ k
    · rw [if_pos hk, Option.some_or, if_pos (by omega)]
    · rw [if_neg hk, Option.none_or]
      by_cases hb : budget / 2 ≤ k + 1
      · have he : max 1 (budget / 2) = k + 1 := by omega
        rw [if_pos hb, if_pos (by omega), he, Function.iterate_succ_apply']
      · rw [if_neg hb, if_neg (by omega)]

theorem start_tracked (cs : List (Constraint α)) (s : System α) (strength : α) (scope : Scope α) :
    Tracked cs (start cs s strength scope) (start cs s strength scope) :=
  ⟨rfl, rfl, rfl, List.prefix_refl _⟩

end Sweep

/-! ## The same run under two budgets -/

/-- A state without its checkpoint. -/
def unmarked (p : Progress α) : Progress α := { p with checkpoint := none }

/-- Two sweeps that do the same to the same states, the checkpoint left out. -/
def SameSweep (f g : Progress α → Progress α) : Prop :=
  ∀ p q : Progress α, p.unmarked = q.unmarked → (f p).unmarked = (g q).unmarked

omit [Scalar α] in
theorem SameSweep.iterate {f g : Progress α → Progress α} (h : SameSweep f g) (p : Progress α) (k : Nat) :
    (f^[k] p).unmarked = (g^[k] p).unmarked := by
  induction k with
  | zero => rfl
  | succ k ih =>
    rw [Function.iterate_succ_apply', Function.iterate_succ_apply']
    exact h _ _ ih

theorem close_unmarked (cs : List (Constraint α)) (b b' : Nat) {p q : Progress α} (h : p.unmarked = q.unmarked) :
    (p.close cs b).unmarked = (q.close cs b').unmarked := by
  simp only [unmarked, Progress.mk.injEq] at h
  obtain ⟨h1, h2, h3, h4, -, -, h7⟩ := h
  simp only [unmarked, close, h1, h2, h3, h4, h7]

omit [Scalar α] in
theorem announce_unmarked {p q : Progress α} (h : p.unmarked = q.unmarked) (soft : Option α) :
    (p.announce soft).unmarked = (q.announce soft).unmarked :=
  congrArg (·.announce soft) h

/-- A move that neither reads nor writes the checkpoint makes sweeps that do the same under any two budgets. -/
theorem sweepOf_sameSweep {move : Progress α → Progress α} (hm : ∀ p, (move p).unmarked = move p.unmarked)
    (soft : Summary α → Option α) (cs : List (Constraint α)) (b b' : Nat) :
    SameSweep (sweepOf move soft cs b) (sweepOf move soft cs b') := by
  intro p q h
  have hmove : (move p).unmarked = (move q).unmarked := by rw [hm, hm, h]
  have hclose := close_unmarked cs b b' hmove
  have hsum : ((move p).close cs b).summary = ((move q).close cs b').summary := (congrArg summary hclose :)
  unfold sweepOf
  rw [hsum]
  exact announce_unmarked hclose _

omit [Scalar α] in
theorem foldl_unmarked {β : Type} {f : Progress α → β → Progress α} (hf : ∀ p x, (f p x).unmarked = f p.unmarked x)
    (l : List β) (p : Progress α) : (l.foldl f p).unmarked = l.foldl f p.unmarked := by
  induction l generalizing p with
  | nil => rfl
  | cons x l ih => rw [List.foldl_cons, List.foldl_cons, ih, hf]

/-- A run that does not stop before its `k`-th sweep has, under a budget of `k` and with sweeps that do the same, the
point that it has after that sweep. -/
theorem point_iterate_of_lasts {g : Progress α → Progress α} (hg : SameSweep sweep g)
    (hset : ∀ p p' q q' : Progress α, p.unmarked = p'.unmarked → q.unmarked = q'.unmarked → settled p q = settled p' q')
    (h : Halts sweep settled n p k) {j : Nat} (hj : j ≤ k) :
    (iterate g settled j p).unmarked = (sweep^[j] p).unmarked := by
  have hsame := fun i => hg.iterate p i
  have hscope : ∀ i, (g^[i] p).scope = (sweep^[i] p).scope := fun i => (congrArg scope (hsame i)).symm
  have hsum : ∀ i, (g^[i] p).summary = (sweep^[i] p).summary := fun i => (congrArg summary (hsame i)).symm
  rw [iterate_eq_of_lasts, hsame]
  · intro i hi
    rw [hscope, hsum]
    exact h.unmet i (by omega)
  · intro i hi
    rw [hset _ _ _ _ (hsame i).symm (hsame (i + 1)).symm]
    exact h.unsettled i (by omega)

end Progress

/-! ## Courses -/

/-- What a relaxation is going to do, whatever its budget will be: it sets out from `base` and makes the moves `move` in each
sweep. -/
structure Course (α : Type) where
  constraints : List (Constraint α)
  base : Progress α
  move : Progress α → Progress α
  /-- What is reported of the soft constraints. -/
  soft : Summary α → Option α
  /-- Whether a sweep was the last one that is worth while. -/
  settled : Progress α → Progress α → Bool

namespace Course

open Progress

/-- The sweep under a budget. -/
def sweep (c : Course α) (n : Nat) : Progress α → Progress α := sweepOf c.move c.soft c.constraints n

/-- The state in which the run under a budget stops. -/
def state (c : Course α) (n : Nat) : Progress α := iterate (c.sweep n) c.settled n c.base

/-- What all courses of the library have in common. -/
structure Sound (c : Course α) : Prop where
  tracked : Tracked c.constraints c.base c.base
  fresh : c.base.sweeps = 0
  unchecked : c.base.checkpoint = none
  moved : ∀ p, Moved p (c.move p)
  unmarked : ∀ p, (c.move p).unmarked = c.move p.unmarked
  settled_unmarked : ∀ p p' q q' : Progress α, p.unmarked = p'.unmarked → q.unmarked = q'.unmarked →
    c.settled p q = c.settled p' q'
  settled_hard : ∀ p q : Progress α, c.settled p q = true → q.summary.hard < q.scope.tolerance

variable {c : Course α} {n : Nat}

namespace Sound

theorem isSweep (h : c.Sound) (n : Nat) : IsSweep c.constraints n (c.sweep n) := sweepOf_isSweep h.moved _ _ _

theorem tracked_state (h : c.Sound) (n : Nat) : Tracked c.constraints c.base (c.state n) := by
  obtain ⟨k, -, he⟩ := iterate_halts (c.sweep n) c.settled n c.base
  rw [state, he]
  exact (h.isSweep n).tracked_iterate h.tracked k

/-- The state after `j` sweeps of a longer run is the one in which the run under the budget `j` stops. -/
theorem state_unmarked (h : c.Sound) {k : Nat} (hk : Halts (c.sweep n) c.settled n c.base k) {j : Nat} (hj : j ≤ k) :
    (c.state j).unmarked = ((c.sweep n)^[j] c.base).unmarked :=
  point_iterate_of_lasts (sweepOf_sameSweep h.unmarked _ _ _ _) h.settled_unmarked hk hj

/-- **What a run reports and remembers.**  It has one report for each sweep, the hard residual in it being that of the
run cut off there; its checkpoint is the hard residual of the run cut off at half of the budget, or after one sweep; and
it stops early only when all residuals are below the tolerance, or when it has settled. -/
theorem state_spec (h : c.Sound) (n : Nat) : ∃ k ≤ n, (c.state n).sweeps = k ∧
    sweepReports (c.state n).scope.log =
      sweepReports c.base.scope.log ++ (List.range k).map (fun j => (j + 1, (c.state (j + 1)).summary.hard)) ∧
    (c.state n).checkpoint =
      (if max 1 (n / 2) ≤ k then some (c.state (max 1 (n / 2))).summary.hard else none) ∧
    (k = n ∨ ¬ (c.state n).scope.tolerance ≤ (c.state n).summary.max ∨
      ∃ p, c.settled p (c.state n) = true) := by
  obtain ⟨k, hk, he⟩ := iterate_halts (c.sweep n) c.settled n c.base
  -- only the checkpoint depends on the budget, so the run cut off at `j` measures the same
  have hsum : ∀ j ≤ k, (c.state j).summary = ((c.sweep n)^[j] c.base).summary :=
    fun j hj => (congrArg summary (h.state_unmarked hk hj) :)
  have hs := h.isSweep n
  refine ⟨k, hk.within, ?_⟩
  rw [show c.state n = (c.sweep n)^[k] c.base from he]
  refine ⟨?_, ?_, ?_, ?_⟩
  · rw [hs.sweeps_iterate, h.fresh, Nat.zero_add]
  · rw [hs.reports_iterate h.fresh]
    congr 1
    apply List.map_congr_left
    intro j hj
    rw [hsum (j + 1) (List.mem_range.mp hj)]
  · rw [hs.checkpoint_iterate h.fresh h.unchecked]
    split
    · rename_i hle
      rw [hsum _ hle]
    · rfl
  · rcases hk.reason with hn | hend | ⟨j, rfl, hend⟩
    · exact .inl hn
    · exact .inr (.inl hend)
    · exact .inr (.inr ⟨_, hend⟩)

end Sound

end Course

end SoftLinear
