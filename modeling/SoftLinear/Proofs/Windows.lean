import SoftLinear.Proofs.Isolation

/-!
# The windows of a binary search

Binary search tries windows until it has come to the end of the list.  Here its loop is written with the position and the
width of the next window, one attempt a turn (`Search.turn`), and proved to be the same (`Search.result_turn`).

All that the position and the width do in a turn is `Search.Moves`, whatever the attempt answers: the position moves on, or
the width is halved.  From that alone follow the bound on the number of turns (`Search.exists_turns`) and the bounds on the
width (`Search.Narrow`).  Nothing is asked of the relaxation: it may answer anything, and contradict itself.  That a turn
is one attempt is read off the same search under a recorder (`Search.turn_trials`).
-/

namespace SoftLinear

namespace Conflict

variable {α ρ : Type} [Scalar α] [Relaxation α ρ]

/-- Where a search stands between two attempts; `start` is the position of the next window in the list. -/
structure Search (α ρ : Type) where
  run : Run α ρ
  start : Nat
  /-- How many constraints the next window is to have, if that many are left. -/
  delta : Nat
  /-- The values that the last attempt that ended optimally has left. -/
  committed : Point α
  suspended : List ConstraintId

namespace Search

omit [Relaxation α ρ] [Scalar α] in
/-- Before the first attempt: everything is disabled, and the first window has one constraint. -/
def begin (r : Run α ρ) (sorted : List ConstraintId) : Search α ρ :=
  let r := switch r sorted false
  ⟨r, 0, 1, r.system.values, []⟩

/-- Where the next window ends. -/
def stop (s : Search α ρ) (n : Nat) : Nat := min (s.start + s.delta) n

def window (s : Search α ρ) (sorted : List ConstraintId) : List ConstraintId :=
  sorted.extract s.start (s.stop sorted.length)

/-- One attempt and what is made of it. -/
def turn (sorted : List ConstraintId) (budget : Nat) (s : Search α ρ) : Search α ρ :=
  let (r, outcome) := attempt (switch s.run (s.window sorted) true) sorted budget
  let r := { r with scope := r.scope.report (.windowTried s.start (s.stop sorted.length) outcome.status) }
  if outcome.status.isOptimal then
    ⟨r, s.stop sorted.length, 2 * s.delta, r.system.values, s.suspended⟩
  else
    let r := restore (switch r (s.window sorted) false) s.committed
    match s.window sorted with
    | [id] => ⟨suspend r id, s.start + 1, 1, s.committed, s.suspended ++ [id]⟩
    | several => ⟨r, s.start, several.length / 2, s.committed, s.suspended⟩

/-- What the search comes to from here on. -/
def result (sorted : List ConstraintId) (budget : Nat) (s : Search α ρ) : Run α ρ × List ConstraintId :=
  searchWindows sorted budget (sorted.drop s.start) (s.delta - 1) s.run s.committed s.suspended

variable {sorted : List ConstraintId} {budget n : Nat} {s t : Search α ρ}

/-! ## The loop -/

omit [Scalar α] [Relaxation α ρ] in
theorem length_window (s : Search α ρ) (sorted : List ConstraintId) :
    (s.window sorted).length = s.stop sorted.length - s.start := by
  have hstop : s.stop sorted.length ≤ sorted.length := Nat.min_le_right _ _
  rw [window, List.extract_eq_take_drop, List.length_take, List.length_drop]
  omega

omit [Scalar α] [Relaxation α ρ] in
theorem window_eq {id : ConstraintId} {rest : List ConstraintId} (hdrop : sorted.drop s.start = id :: rest)
    (hdelta : 0 < s.delta) : s.window sorted = id :: rest.take (s.delta - 1) := by
  have hlength : sorted.length - s.start = rest.length + 1 := by rw [← List.length_drop, hdrop, List.length_cons]
  have hcons : id :: rest.take (s.delta - 1) = (id :: rest).take s.delta := by
    obtain ⟨m, hm⟩ := Nat.exists_eq_add_of_lt hdelta
    rw [hm, Nat.zero_add, List.take_succ_cons, Nat.add_sub_cancel]
  rw [window, List.extract_eq_take_drop, hdrop, hcons, List.take_eq_take_iff, List.length_cons, stop]
  omega

theorem result_end (h : s.start = sorted.length) : s.result sorted budget = (s.run, s.suspended) := by
  rw [result, h, List.drop_length, searchWindows]

/-- **A turn of the loop** is one step of the search. -/
theorem result_turn (h : s.start < sorted.length) (hdelta : 0 < s.delta) :
    s.result sorted budget = (s.turn sorted budget).result sorted budget := by
  obtain ⟨id, rest, hdrop⟩ : ∃ id rest, sorted.drop s.start = id :: rest :=
    List.exists_cons_of_ne_nil (by simpa using h)
  have hwindow := window_eq hdrop hdelta
  have hlength : sorted.length - s.start = rest.length + 1 := by rw [← List.length_drop, hdrop, List.length_cons]
  have hstart : sorted.length - (id :: rest).length = s.start := by
    rw [List.length_cons]
    omega
  have hstop : s.start + (s.window sorted).length = s.stop sorted.length := by
    rw [length_window, stop]
    omega
  have hbehind : rest.drop (s.delta - 1) = sorted.drop (s.stop sorted.length) := by
    rw [← hstop, ← List.drop_drop, hdrop, hwindow]
    simp
  unfold result
  rw [hdrop, searchWindows, ← hwindow, hstart, hstop, turn]
  dsimp only
  -- accepted, halved and suspended, as in the search
  split
  · rw [hbehind, show 2 * (s.delta - 1) + 1 = 2 * s.delta - 1 by omega]
  · split
    · -- a window of several constraints is not the singleton that would be suspended
      rename_i hseveral
      split
      · rename_i heq
        rw [heq] at hseveral
        exact absurd hseveral (by simp)
      · rw [hdrop]
    · rename_i hone
      have hsingle : s.window sorted = [id] := by
        rw [hwindow, List.length_cons] at hone
        rw [hwindow, List.length_eq_zero_iff.mp (by omega : (rest.take (s.delta - 1)).length = 0)]
      rw [hsingle]
      dsimp only
      rw [← List.drop_drop, hdrop]
      rfl

/-! ## Position and width -/

/-- What a turn does to the position and the width: an accepted window is left behind and the width doubled, a window that
fails is halved, and a single constraint that fails is left behind with the width back at one. -/
inductive Moves (n : Nat) (s t : Search α ρ) : Prop where
  | accept (start : t.start = s.stop n) (delta : t.delta = 2 * s.delta)
  | halve (several : 1 < s.stop n - s.start) (start : t.start = s.start) (delta : t.delta = (s.stop n - s.start) / 2)
  | suspend (single : s.stop n = s.start + 1) (start : t.start = s.start + 1) (delta : t.delta = 1)

theorem turn_moves (h : s.start < sorted.length) (hdelta : 0 < s.delta) :
    Moves sorted.length s (s.turn sorted budget) := by
  have hlength := length_window s sorted
  have hpos : 0 < s.stop sorted.length - s.start := by
    rw [stop]
    omega
  unfold turn
  dsimp only
  split
  · exact .accept rfl rfl
  · split
    · rename_i hsingle
      rw [hsingle, List.length_singleton] at hlength
      exact .suspend (by omega) rfl rfl
    · rename_i hnone
      refine .halve ?_ rfl (congrArg (· / 2) hlength)
      by_contra hfew
      obtain ⟨id, hid⟩ := List.length_eq_one_iff.mp (by omega : (s.window sorted).length = 1)
      exact hnone id hid

/-- The bounds on position and width.  Before the end of the list the width is at most twice its length: it was doubled
after a window of its size, which lies before the position. -/
structure Narrow (n : Nat) (s : Search α ρ) : Prop where
  pos : 0 < s.delta
  within : s.start ≤ n
  width : s.delta ≤ 4 * n
  ahead : s.start < n → s.delta ≤ 2 * n

omit [Scalar α] [Relaxation α ρ] in
theorem begin_narrow (r : Run α ρ) (h : 0 < sorted.length) : Narrow sorted.length (begin r sorted) where
  pos := Nat.one_pos
  within := Nat.zero_le _
  width := by show 1 ≤ _; omega
  ahead _ := by show 1 ≤ _; omega

omit [Scalar α] [Relaxation α ρ] in
theorem Narrow.moves (h : Narrow n s) (hlt : s.start < n) (hm : Moves n s t) : Narrow n t := by
  have hstop : s.stop n = min (s.start + s.delta) n := rfl
  have hwide := h.ahead hlt
  have hpos := h.pos
  cases hm with
  | accept start delta => exact ⟨by omega, by omega, by omega, by omega⟩
  | halve several start delta => exact ⟨by omega, by omega, by omega, by omega⟩
  | suspend single start delta => exact ⟨by omega, by omega, by omega, by omega⟩

/-! ## The number of turns -/

/-- The turns that a search may still take: the logarithm of its window for the constraint that comes next, and that of the
whole list for each one behind. -/
def cost (n : Nat) (s : Search α ρ) : Nat :=
  if s.start < n then (n - s.start - 1) * (Nat.log 2 n + 1) + (Nat.log 2 (s.stop n - s.start) + 1) else 0

omit [Scalar α] [Relaxation α ρ] in
theorem cost_le (n : Nat) (s : Search α ρ) : cost n s ≤ (n - s.start) * (Nat.log 2 n + 1) := by
  unfold cost
  split
  · have hstop : s.stop n ≤ n := Nat.min_le_right _ _
    have hlog : Nat.log 2 (s.stop n - s.start) ≤ Nat.log 2 n := Nat.log_mono_right (by omega)
    obtain ⟨m, hm⟩ : ∃ m, n - s.start = m + 1 := ⟨n - s.start - 1, by omega⟩
    rw [hm, Nat.add_sub_cancel, Nat.succ_mul]
    omega
  · exact Nat.zero_le _

omit [Scalar α] [Relaxation α ρ] in
/-- Each turn is paid for. -/
theorem cost_moves (hlt : s.start < n) (hdelta : 0 < s.delta) (hm : Moves n s t) : cost n t + 1 ≤ cost n s := by
  have hstop : s.stop n = min (s.start + s.delta) n := rfl
  have hcost : cost n s = (n - s.start - 1) * (Nat.log 2 n + 1) + (Nat.log 2 (s.stop n - s.start) + 1) := if_pos hlt
  -- leaving a constraint behind pays for the window that comes then
  have hbehind : s.start + 1 ≤ t.start → cost n t + 1 ≤ cost n s := by
    intro hstart
    have hfew : (n - t.start) * (Nat.log 2 n + 1) ≤ (n - s.start - 1) * (Nat.log 2 n + 1) :=
      Nat.mul_le_mul_right _ (by omega)
    have := cost_le n t
    omega
  cases hm with
  | accept start delta => exact hbehind (by omega)
  | suspend single start delta => exact hbehind (by omega)
  | halve several start delta =>
    have hhalf : t.stop n - t.start = (s.stop n - s.start) / 2 := by
      rw [stop, start, delta]
      omega
    have hlog : Nat.log 2 (s.stop n - s.start) = Nat.log 2 ((s.stop n - s.start) / 2) + 1 :=
      Nat.log_of_one_lt_of_le Nat.one_lt_two several
    rw [hcost, cost, if_pos (start ▸ hlt), hhalf, start, hlog]
    omega

/-- A search reaches the end of the list after no more turns than it may take. -/
theorem exists_turns (h : Narrow sorted.length s) (budget : Nat) :
    ∃ k ≤ cost sorted.length s, ((turn sorted budget)^[k] s).start = sorted.length ∧
      ∀ j < k, ((turn sorted budget)^[j] s).start < sorted.length := by
  generalize hc : cost sorted.length s = c
  induction c using Nat.strong_induction_on generalizing s with
  | h c ih =>
    by_cases hlt : s.start < sorted.length
    · have hm : Moves sorted.length s (s.turn sorted budget) := turn_moves hlt h.pos
      have hpaid := cost_moves hlt h.pos hm
      obtain ⟨k, hk, hend, hbefore⟩ := ih _ (by omega) (h.moves hlt hm) rfl
      refine ⟨k + 1, by omega, hend, fun j hj => ?_⟩
      cases j with
      | zero => exact hlt
      | succ j => exact hbefore j (by omega)
    · exact ⟨0, Nat.zero_le _, le_antisymm h.within (not_lt.mp hlt), by simp⟩

/-- What holds along the turns up to the end of the list. -/
theorem iterate_narrow (h : Narrow sorted.length s) {k : Nat}
    (hbefore : ∀ j < k, ((turn sorted budget)^[j] s).start < sorted.length) :
    Narrow sorted.length ((turn sorted budget)^[k] s) ∧
      ((turn sorted budget)^[k] s).result sorted budget = s.result sorted budget := by
  induction k with
  | zero => exact ⟨h, rfl⟩
  | succ k ih =>
    obtain ⟨hk, hresult⟩ := ih fun j hj => hbefore j (by omega)
    have hlt := hbefore k (Nat.lt_succ_self k)
    rw [Function.iterate_succ_apply']
    exact ⟨hk.moves hlt (turn_moves hlt hk.pos), (result_turn hlt hk.pos).symm.trans hresult⟩

/-! ## The number of attempts -/

omit [Scalar α] [Relaxation α ρ] in
/-- The same search without the record of its attempts. -/
def erase (s : Search α (Recorder α ρ)) : Search α ρ :=
  ⟨s.run.map Recorder.engine, s.start, s.delta, s.committed, s.suspended⟩

theorem turn_erase (sorted : List ConstraintId) (budget : Nat) (s : Search α (Recorder α ρ)) :
    (s.turn sorted budget).erase = s.erase.turn sorted budget := by
  have hwindow : s.erase.window sorted = s.window sorted := rfl
  have he : attempt (switch s.erase.run (s.window sorted) true) sorted budget =
      unrecorded (attempt (switch s.run (s.window sorted) true) sorted budget) :=
    attempt_erase (r := switch s.run (s.window sorted) true) rfl
  unfold turn
  rw [hwindow, he]
  dsimp only [unrecorded]
  split
  · rfl
  · split <;> rfl

theorem turn_trials (sorted : List ConstraintId) (budget : Nat) (s : Search α (Recorder α ρ)) :
    (s.turn sorted budget).run.engine.trials.length = s.run.engine.trials.length + 1 := by
  have hmade : (attempt (switch s.run (s.window sorted) true) sorted budget).1.engine.trials.length =
      s.run.engine.trials.length + 1 := attempt_trials_length (r := s.run) rfl
  rw [← hmade]
  unfold turn
  dsimp only
  split
  · rfl
  · split <;> rfl

theorem iterate_trials (sorted : List ConstraintId) (budget : Nat) (s : Search α (Recorder α ρ)) (k : Nat) :
    ((turn sorted budget)^[k] s).run.engine.trials.length = s.run.engine.trials.length + k := by
  induction k with
  | zero => rfl
  | succ k ih => rw [Function.iterate_succ_apply', turn_trials, ih, Nat.add_assoc]

end Search

end Conflict

namespace Strategy

open Conflict

variable {α ρ : Type} [Scalar α] [Relaxation α ρ]

/-- **Binary search ends, whatever the attempts answer.**  For a list of `n ≥ 1` constraints and any relaxation, its loop
comes to the end of the list after at most `n (⌊log₂ n⌋ + 1)` turns, which are all the attempts that it makes.  No window
that it tries is empty, and the width never exceeds `4 n`; so on a machine whose words have a number of bits, neither the
end of a window nor the doubled width leaves the range of a word, if the list, at one word for each constraint, takes up
less than half of the memory that a word can address. -/
theorem binarySearch_terminates (r : Run α ρ) (sorted : List ConstraintId) (budget : Nat) (hpos : 0 < sorted.length) :
    let n := sorted.length
    let state := fun j => (Search.turn sorted budget)^[j] (Search.begin r sorted)
    ∃ k ≤ n * (Nat.log 2 n + 1),
      binarySearch.resolve r sorted budget = settle (state k).run (state k).suspended .optimal ∧
      (binarySearch.trials r sorted budget).length = k ∧
      (state k).start = n ∧
      (∀ j < k, (state j).start < n ∧ (state j).window sorted ≠ []) ∧
      (∀ j ≤ k, (state j).delta ≤ 4 * n) ∧
      ∀ bits, 16 ≤ bits → n * (bits / 8) < 2 ^ (bits - 1) →
        ∀ j < k, (state j).start + (state j).delta < 2 ^ bits ∧ 2 * (state j).delta < 2 ^ bits := by
  intro n state
  -- the search under a recorder goes through the same positions and widths
  let recorded := fun j => (Search.turn sorted budget)^[j] (Search.begin (r.map (Recorder.watch (α := α) sorted)) sorted)
  have herase : ∀ j, (recorded j).erase = state j := fun j =>
    Function.Semiconj.iterate_right (Search.turn_erase sorted budget) j _
  have hstart : ∀ j, (recorded j).start = (state j).start := fun j => congrArg Search.start (herase j)
  have hbegin : Search.Narrow n (Search.begin r sorted) := Search.begin_narrow r hpos
  obtain ⟨k, hk, hend, hbefore⟩ := Search.exists_turns hbegin budget
  have hnarrow : ∀ j ≤ k, Search.Narrow n (state j) := fun j hj =>
    (Search.iterate_narrow hbegin fun i hi => hbefore i (by omega)).1
  refine ⟨k, hk.trans (Search.cost_le n _), ?_, ?_, hend, fun j hj => ⟨hbefore j hj, ?_⟩,
    fun j hj => (hnarrow j hj).width, ?_⟩
  · have hresult := (Search.iterate_narrow hbegin hbefore).2
    rw [Search.result_end hend] at hresult
    exact congrArg (fun out : Run α ρ × List ConstraintId => settle out.1 out.2 .optimal) hresult.symm
  · have hbefore' : ∀ j < k, (recorded j).start < n := fun j hj => (hstart j).trans_lt (hbefore j hj)
    have hresult := (Search.iterate_narrow (Search.begin_narrow _ hpos) hbefore').2
    rw [Search.result_end ((hstart k).trans hend)] at hresult
    have htrials : binarySearch.trials r sorted budget = (recorded k).run.engine.trials :=
      congrArg (fun out : Run α (Recorder α ρ) × List ConstraintId => out.1.engine.trials) hresult.symm
    rw [htrials, Search.iterate_trials]
    exact Nat.zero_add k
  · have hlt : (state j).start < n := hbefore j hj
    have hdelta := (hnarrow j hj.le).pos
    apply List.ne_nil_of_length_pos
    rw [Search.length_window, Search.stop]
    omega
  · -- the sum is formed before it is cut off at the end of the list
    intro bits hbits hfits j hj
    have hlt : (state j).start < n := hbefore j hj
    have hwide := (hnarrow j hj.le).ahead hlt
    have htwo : n * 2 ≤ n * (bits / 8) := Nat.mul_le_mul_left n (by omega)
    have hpow : 2 ^ bits = 2 * 2 ^ (bits - 1) := by
      rw [← Nat.pow_succ']
      congr 1
      omega
    omega

/-! ## Answers that contradict each other -/

/-- A relaxation that moves nothing and reads its answers from a list. -/
structure Script (α : Type) where
  /-- The answers still to come; after the last one, no attempt succeeds. -/
  answers : List Status

instance : Relaxation α (Script α) where
  prepare r _ := r
  relax r _ :=
    ({ r with engine := ⟨r.engine.answers.tail⟩ }, ⟨r.engine.answers.headD .infeasible, 0, 0, 0, []⟩)
  budget _ := defaultBudget
  name _ := "script"

/-- Answers that contradict each other: the second attempt and the fourth are on the same three constraints, and only the
fourth succeeds.  Three constraints allow for six turns. -/
theorem binarySearch_terminates_of_contradiction :
    let x : List (Term Float) := [⟨1, ⟨0, 0⟩⟩]
    let s : System Float := { System.empty 0 with
      slots := #[⟨0, none, [⟨0⟩, ⟨1⟩, ⟨2⟩]⟩]
      attached := [⟨0, 0⟩]
      constraints := #[some (.build x .eq (.fixed 4)), some (.build x .le (.fixed 5)), some (.build x .ge (.fixed 3))]
      order := [⟨0⟩, ⟨1⟩, ⟨2⟩] }
    let sorted : List ConstraintId := [⟨0⟩, ⟨1⟩, ⟨2⟩]
    let r : Run Float (Script Float) :=
      ⟨⟨[.optimal, .infeasible, .optimal, .optimal]⟩, s, { tolerance := s.tolerance }⟩
    (binarySearch.resolve r sorted 1).2 = ⟨.optimal, []⟩ ∧
      ∃ k ≤ 6, ((Search.turn sorted 1)^[k] (Search.begin r sorted)).start = 3 := by
  intro x s sorted r
  obtain ⟨k, hk, -, -, hend, -⟩ := binarySearch_terminates r sorted 1 (by decide)
  have hlog : Nat.log 2 sorted.length = 1 := by decide +kernel
  rw [hlog] at hk
  exact ⟨by decide +kernel, k, hk, hend⟩

end Strategy

end SoftLinear
