import Mathlib.Data.Finset.Card
import Mathlib.Data.Nat.Log
import Mathlib.Tactic.Ring
import SoftLinear.Proofs.Agreement

/-!
# How soon a binary search isolates conflicts

Suppose that an attempt ends optimally exactly when none of certain conflicting constraints is enabled.  Then binary search
suspends just these, and it is left to count its attempts.  The count is paid by a potential (`Conflict.toll`) of two
numbers: how many constraints are free before the next conflict, and how large the window is.

* A window that is accepted doubles the next one.  Far from the conflict this halves what is left in units of the window;
  near it, at least half of the free constraints are gone (`toll_accept`).
* A window that fails is halved, and after that the conflict is near (`toll_halve`).
* A conflict that was found sets the window back to one constraint (`toll_one_le`).

So each conflict costs a number of attempts that is logarithmic in the length of the list.
-/

namespace SoftLinear

namespace Conflict

/-! ## The potential -/

section Potential

variable {free size width n : Nat}

/-- How many attempts the next conflict may still cost when some constraints are free before it. -/
def toll (free size : Nat) : Nat :=
  Nat.log 2 size + 1 + 2 * Nat.clog 2 (free + 1) + 2 * Nat.log 2 ((free - 1) / size)

theorem toll_pos : 0 < toll free size := by
  unfold toll
  omega

theorem clog_succ_half (hn : 0 < n) {m : Nat} (h : m ≤ n / 2) : Nat.clog 2 (m + 1) + 1 ≤ Nat.clog 2 (n + 1) := by
  rw [Nat.clog_of_two_le one_lt_two (by omega : 2 ≤ n + 1)]
  exact Nat.succ_le_succ (Nat.clog_mono_right 2 (by omega))

theorem toll_accept (hpos : 0 < size) (h : size ≤ free) : toll (free - size) (2 * size) + 1 ≤ toll free size := by
  have hlog : Nat.log 2 (2 * size) = Nat.log 2 size + 1 := by
    rw [Nat.mul_comm]
    exact Nat.log_mul_base one_lt_two hpos.ne'
  unfold toll
  by_cases hfar : 2 * size < free
  · -- far from the conflict, the last summand pays for the larger window
    have hrest : Nat.clog 2 (free - size + 1) ≤ Nat.clog 2 (free + 1) := Nat.clog_mono_right 2 (by omega)
    have hunits : 2 ≤ (free - 1) / size := (Nat.le_div_iff_mul_le hpos).mpr (by omega)
    have hhalf : Nat.log 2 ((free - size - 1) / (2 * size)) + 1 ≤ Nat.log 2 ((free - 1) / size) := by
      have hle : (free - size - 1) / (2 * size) ≤ (free - 1) / size / 2 := by
        rw [Nat.div_div_eq_div_mul, Nat.mul_comm size 2]
        exact Nat.div_le_div_right (by omega)
      rw [Nat.log_of_one_lt_of_le one_lt_two hunits]
      exact Nat.succ_le_succ (Nat.log_mono_right hle)
    omega
  · -- near it, the last summand is zero from now on, and the one before it pays
    have hrest := clog_succ_half (by omega : 0 < free) (by omega : free - size ≤ free / 2)
    have hunits : (free - size - 1) / (2 * size) = 0 := Nat.div_eq_of_lt (by omega)
    rw [hunits, Nat.log_zero_right]
    omega

theorem toll_halve (hwidth : width ≤ size) (htwo : 2 ≤ width) (hfree : free < width) :
    toll free (width / 2) + 1 ≤ toll free size := by
  have hlog : Nat.log 2 (width / 2) + 1 ≤ Nat.log 2 size := by
    rw [← Nat.log_of_one_lt_of_le one_lt_two htwo]
    exact Nat.log_mono_right hwidth
  have hunits : (free - 1) / (width / 2) ≤ 1 := by
    rw [Nat.div_le_iff_le_mul_add_pred (by omega)]
    omega
  -- the conflict is within the window, so the last summand is zero already
  have hnear : Nat.log 2 ((free - 1) / (width / 2)) = 0 := Nat.log_of_lt (by omega)
  unfold toll
  omega

theorem toll_one_le (h : free ≤ n) : toll free 1 ≤ 4 * (Nat.log 2 n + 1) := by
  have hfree : Nat.clog 2 (free + 1) ≤ Nat.log 2 n + 1 := by
    apply Nat.clog_le_of_le_pow
    have := Nat.lt_pow_succ_log_self one_lt_two n
    omega
  have hunits : Nat.log 2 ((free - 1) / 1) ≤ Nat.log 2 n := Nat.log_mono_right (by omega)
  unfold toll
  rw [Nat.log_one_right]
  omega

end Potential

/-! ## Conflicts in a list -/

section Conflicts

variable {conflicts : Finset ConstraintId} {window rest : List ConstraintId}

/-- Whether none of the conflicts is in a set. -/
def spares (conflicts S : Finset ConstraintId) : Bool := decide (∀ id ∈ conflicts, id ∉ S)

/-- How many constraints stand before the first conflict of a list. -/
def front (conflicts : Finset ConstraintId) (pending : List ConstraintId) : Nat :=
  (pending.takeWhile (· ∉ conflicts)).length

theorem front_le (conflicts : Finset ConstraintId) (pending : List ConstraintId) :
    front conflicts pending ≤ pending.length :=
  (List.takeWhile_prefix _).length_le

theorem front_append (h : ∀ id ∈ window, id ∉ conflicts) :
    front conflicts (window ++ rest) = window.length + front conflicts rest := by
  unfold front
  rw [List.takeWhile_append_of_pos (by simpa using h), List.length_append]

theorem front_lt (h : ¬ ∀ id ∈ window, id ∉ conflicts) : front conflicts (window ++ rest) < window.length := by
  induction window with
  | nil => simp at h
  | cons id window ih =>
    by_cases hid : id ∈ conflicts
    · simp [front, hid]
    · have hrest : ¬ ∀ other ∈ window, other ∉ conflicts := by simpa [hid] using h
      have := ih hrest
      simp only [front, List.cons_append, List.takeWhile_cons, hid, not_false_eq_true, decide_true, if_true,
        List.length_cons] at this ⊢
      omega

variable {α : Type} {base : System α} {sorted : List ConstraintId}

theorem countP_conflicts (hn : sorted.Nodup) (hconflicts : ∀ id ∈ conflicts, id ∈ sorted) :
    sorted.countP (· ∈ conflicts) = conflicts.card := by
  rw [List.countP_eq_length_filter, ← List.toFinset_card_of_nodup (hn.filter _)]
  congr 1
  ext id
  simpa using hconflicts id

theorem spares_present (hexist : ∀ id ∈ sorted, (base.flag? id).isSome) (hconflicts : ∀ id ∈ conflicts, id ∈ sorted)
    (kept : List ConstraintId) : spares conflicts (present base sorted kept) = decide (∀ id ∈ kept, id ∉ conflicts) := by
  have hmem : ∀ id ∈ conflicts, (id ∈ present base sorted kept ↔ id ∈ kept) := by
    intro id hid
    have hlisted := hconflicts id hid
    simp [present, hlisted, hexist id hlisted]
  unfold spares
  rw [decide_eq_decide]
  constructor
  · intro h id hkept hid
    exact h id hid ((hmem id hid).mpr hkept)
  · intro h id hid hpresent
    exact h id ((hmem id hid).mp hpresent) hid

theorem clean_append {kept : List ConstraintId} (hkept : ∀ id ∈ kept, id ∉ conflicts) :
    (∀ id ∈ kept ++ window, id ∉ conflicts) ↔ ∀ id ∈ window, id ∉ conflicts := by
  rw [List.forall_mem_append]
  exact and_iff_right hkept

/-- With a window on top of what was kept, it depends on the window alone whether there is a conflict. -/
theorem spares_window (hexist : ∀ id ∈ sorted, (base.flag? id).isSome) (hconflicts : ∀ id ∈ conflicts, id ∈ sorted)
    {kept : List ConstraintId} (hkept : ∀ id ∈ kept, id ∉ conflicts) (window : List ConstraintId) :
    spares conflicts (present base sorted (kept ++ window)) = decide (∀ id ∈ window, id ∉ conflicts) := by
  rw [spares_present hexist hconflicts, decide_eq_decide]
  exact clean_append hkept

theorem sift_conflicts {good : List ConstraintId → Bool} {kept refused pending : List ConstraintId}
    (hgood : ∀ l, good l = decide (∀ id ∈ l, id ∉ conflicts)) (hkept : ∀ id ∈ kept, id ∉ conflicts) :
    (sift good kept refused pending).2 = refused ++ pending.filter (· ∈ conflicts) := by
  induction pending generalizing kept refused with
  | nil => simp [sift]
  | cons id pending ih =>
    have hnext : good (kept ++ [id]) = decide (id ∉ conflicts) := by
      rw [hgood, decide_eq_decide, clean_append hkept, List.forall_mem_singleton]
    by_cases hid : id ∈ conflicts
    · rw [sift_refuse (by simp [hnext, hid]), ih hkept, List.filter_cons_of_pos (by simpa using hid)]
      simp
    · rw [sift_keep (by simp [hnext, hid]), List.filter_cons_of_neg (by simpa using hid)]
      exact ih ((clean_append hkept).mpr (List.forall_mem_singleton.mpr hid))

end Conflicts

/-! ## Counting attempts -/

section Counting

variable {α ρ : Type} [Scalar α] [Relaxation α ρ] [Relaxation.KeepsRules α ρ] {base : System α} {tol : α}
  {budget : Nat} {sorted kept pending suspended : List ConstraintId} {committed : Point α}
  {r : Run α (Recorder α ρ)} {conflicts : Finset ConstraintId}

omit [Scalar α] [Relaxation.KeepsRules α ρ] in
theorem attempt_trials_length {r₁ : Run α (Recorder α ρ)} {outcome : Outcome α} {window : List ConstraintId}
    (ha : attempt (switch r window true) sorted budget = (r₁, outcome)) :
    r₁.engine.trials.length = r.engine.trials.length + 1 := by
  obtain ⟨rfl, -⟩ := Prod.mk.inj ha
  refine (congrArg List.length (Recorder.relax_trials _ _)).trans ?_
  rw [List.length_append]
  rfl

/-- The attempts of a search: what the next conflict may still cost, and a logarithmic number for each one to come. -/
theorem searchWindows_trials_le (hexist : ∀ id ∈ sorted, (base.flag? id).isSome)
    (hconflicts : ∀ id ∈ conflicts, id ∈ sorted) (others : Nat) (h : Sifting base tol sorted kept pending r)
    (hkept : ∀ id ∈ kept, id ∉ conflicts)
    (hj : Judged (spares conflicts) (searchWindows sorted budget pending others r committed suspended).1.engine.trials) :
    (searchWindows sorted budget pending others r committed suspended).1.engine.trials.length ≤
      r.engine.trials.length + toll (front conflicts pending) (others + 1) +
        pending.countP (· ∈ conflicts) * (4 * (Nat.log 2 sorted.length + 1)) := by
  fun_induction searchWindows sorted budget pending others r committed suspended generalizing kept with
  | case1 others r committed suspended => exact (Nat.le_add_right _ _).trans (Nat.le_add_right _ _)
  | case2 others r committed suspended id rest window start r₁ outcome ha r₂ ho =>
    -- accepted: either nothing is left, or the drop of the toll pays for the attempt and the count stays
    rename_i ih
    have hsplit : id :: rest = window ++ rest.drop others := by simp [window]
    obtain ⟨hgood, hnext⟩ := h.accept hsplit ha
      (searchWindows_trials_grow (rest.drop others) (2 * others + 1) r₂ _ _) hj ho _
    rw [spares_window hexist hconflicts hkept] at hgood
    have hclean : ∀ id ∈ window, id ∉ conflicts := of_decide_eq_true hgood
    have hmade : r₂.engine.trials.length = r.engine.trials.length + 1 := (attempt_trials_length ha :)
    by_cases hend : rest.drop others = []
    · have hpos : 0 < toll (front conflicts (id :: rest)) (others + 1) := toll_pos
      rw [hend, searchWindows]
      show r₂.engine.trials.length ≤ _
      omega
    · -- the window is not cut off, so it has its full size
      have hfull : window.length = others + 1 := by
        have : others < rest.length := by simpa using hend
        simp only [window, List.length_cons, List.length_take]
        omega
      have hfree : front conflicts (id :: rest) = (others + 1) + front conflicts (rest.drop others) := by
        rw [hsplit, front_append hclean, hfull]
      have hpaid := toll_accept (by omega : 0 < others + 1) (by omega : others + 1 ≤ front conflicts (id :: rest))
      rw [hfree, Nat.add_sub_cancel_left, ← hfree] at hpaid
      have hcount : (id :: rest).countP (· ∈ conflicts) = (rest.drop others).countP (· ∈ conflicts) := by
        rw [hsplit, List.countP_append, List.countP_eq_zero.mpr (by simpa using hclean), Nat.zero_add]
      have hbound := ih hnext ((clean_append hkept).mpr hclean) hj
      rw [show 2 * others + 1 + 1 = 2 * (others + 1) by omega] at hbound
      rw [hcount]
      omega
  | case3 others r committed suspended id rest window start r₁ outcome ha r₂ ho r₃ hw =>
    -- rejected and halved: the attempt is paid by the logarithm of the window
    rename_i ih
    have hsplit : id :: rest = window ++ rest.drop others := by simp [window]
    obtain ⟨hbad, hback⟩ := h.reject hsplit ha
      (searchWindows_trials_grow (id :: rest) (window.length / 2 - 1) r₃ _ _) hj ho _ committed
    rw [spares_window hexist hconflicts hkept] at hbad
    have hmade : r₃.engine.trials.length = r.engine.trials.length + 1 := (attempt_trials_length ha :)
    have hwidth : window.length ≤ others + 1 := by
      simp only [window, List.length_cons, List.length_take]
      omega
    have hfree : front conflicts (id :: rest) < window.length := hsplit ▸ front_lt (of_decide_eq_false hbad)
    have hpaid := toll_halve hwidth hw hfree
    have hbound := ih hback hkept hj
    rw [show window.length / 2 - 1 + 1 = window.length / 2 by omega] at hbound
    omega
  | case4 others r committed suspended id rest window start r₁ outcome ha r₂ ho r₃ hw =>
    rename_i ih
    have hone : window = [id] := window_single hw
    have hsplit : id :: rest = window ++ rest := by rw [hone]; rfl
    obtain ⟨hbad, hback⟩ := h.reject hsplit ha (searchWindows_trials_grow rest 0 (suspend r₃ id) _ _) hj ho _ committed
    -- a single rejected constraint is a conflict, and its share of the bound pays for the search for the next
    have hid : id ∈ conflicts := by
      rw [spares_window hexist hconflicts hkept, hone] at hbad
      simpa using hbad
    have hmade : (suspend r₃ id).engine.trials.length = r.engine.trials.length + 1 := (attempt_trials_length ha :)
    have hrest : rest.length ≤ sorted.length :=
      (List.subperm_of_subset hback.pass.nodup hback.pass.subset).length_le
    have hnew := toll_one_le ((front_le conflicts rest).trans hrest)
    have hpos : 0 < toll (front conflicts (id :: rest)) (others + 1) := toll_pos
    have hbound := ih hback.pass hkept hj
    rw [Nat.zero_add] at hbound
    rw [List.countP_cons_of_pos (by simpa using hid), Nat.succ_mul]
    omega

omit [Scalar α] in
theorem attempt_optimal {r₁ : Run α (Recorder α ρ)} {outcome : Outcome α} {window : List ConstraintId}
    (ha : attempt (switch r window true) sorted budget = (r₁, outcome)) {trials : List (Trial α)}
    (hmade : r₁.engine.trials <+: trials) (hall : ∀ t ∈ trials, t.status = .optimal) :
    outcome.status.isOptimal = true := by
  have hmem := hmade.subset ((attempt_trials ha).2 ▸ List.mem_append_right _ (List.mem_singleton.mpr rfl))
  exact Status.isOptimal_iff.mpr (hall _ hmem)

/-- The windows of a search that never fails grow by powers of two: the list and the next window together keep their
length. -/
theorem searchWindows_trials_of_optimal {others exponent : Nat} (hpower : others + 1 = 2 ^ exponent)
    (hall : ∀ t ∈ (searchWindows sorted budget pending others r committed suspended).1.engine.trials,
      t.status = .optimal) :
    (searchWindows sorted budget pending others r committed suspended).1.engine.trials.length + exponent =
      r.engine.trials.length + Nat.clog 2 (pending.length + 2 ^ exponent) := by
  fun_induction searchWindows sorted budget pending others r committed suspended generalizing exponent with
  | case1 others r committed suspended =>
    rw [List.length_nil, Nat.zero_add, Nat.clog_pow 2 exponent one_lt_two]
  | case2 others r committed suspended id rest window start r₁ outcome ha r₂ ho =>
    rename_i ih
    have hmade : r₂.engine.trials.length = r.engine.trials.length + 1 := (attempt_trials_length ha :)
    have hdouble : 2 * others + 1 + 1 = 2 ^ (exponent + 1) := by
      rw [Nat.pow_succ, ← hpower]
      omega
    have hcount := ih hdouble hall
    by_cases hend : rest.length ≤ others
    · -- the last window is cut off: it takes up all that is left
      have hnil : (rest.drop others).length = 0 := by
        rw [List.length_drop]
        omega
      have hlast : Nat.clog 2 ((id :: rest).length + 2 ^ exponent) = exponent + 1 := by
        rw [List.length_cons]
        apply le_antisymm
        · apply Nat.clog_le_of_le_pow
          omega
        · rw [Nat.succ_le_iff, Nat.lt_clog_iff_pow_lt one_lt_two]
          omega
      rw [hnil, Nat.zero_add, Nat.clog_pow 2 (exponent + 1) one_lt_two] at hcount
      omega
    · have hsame : (rest.drop others).length + 2 ^ (exponent + 1) = (id :: rest).length + 2 ^ exponent := by
        rw [List.length_drop, List.length_cons, ← hdouble, ← hpower]
        omega
      rw [hsame] at hcount
      omega
  | case3 others r committed suspended id rest window start r₁ outcome ha r₂ ho r₃ hw =>
    exact absurd (attempt_optimal ha (searchWindows_trials_grow (id :: rest) (window.length / 2 - 1) r₃ _ _) hall) ho
  | case4 others r committed suspended id rest window start r₁ outcome ha r₂ ho r₃ hw =>
    exact absurd (attempt_optimal ha (searchWindows_trials_grow rest 0 (suspend r₃ id) _ _) hall) ho

end Counting

end Conflict

namespace Strategy

open Conflict

variable {α ρ : Type} [Scalar α] [Relaxation α ρ] [Relaxation.KeepsRules α ρ]

/-- **Binary search isolates conflicts in logarithmically many attempts.**  Take a list of different constraints and some
conflicts among them, and suppose that each attempt ends optimally exactly when no conflict is enabled in it.  Then binary
search suspends exactly the conflicts, in the order of the list, and makes at most `4 (k + 1) (⌊log₂ n⌋ + 1)` attempts for
`k` conflicts among `n` constraints.  Without conflicts it makes exactly `⌈log₂ (n + 1)⌉` attempts. -/
theorem binarySearch_resolve_isolates (r : Run α ρ) (sorted : List ConstraintId) (budget : Nat) (hn : sorted.Nodup)
    (hexist : ∀ id ∈ sorted, (r.system.flag? id).isSome) (conflicts : Finset ConstraintId)
    (hconflicts : ∀ id ∈ conflicts, id ∈ sorted)
    (htrials : ∀ t ∈ binarySearch.trials r sorted budget, t.status = .optimal ↔ ∀ id ∈ conflicts, id ∉ t.members) :
    (binarySearch.resolve r sorted budget).2.suspended = sorted.filter (· ∈ conflicts) ∧
    (binarySearch.trials r sorted budget).length ≤ 4 * (conflicts.card + 1) * (Nat.log 2 sorted.length + 1) ∧
    (conflicts = ∅ → (binarySearch.trials r sorted budget).length = Nat.clog 2 (sorted.length + 1)) := by
  have hj : Judged (spares conflicts) (binarySearch.trials r sorted budget) := by
    intro t ht
    rw [Bool.eq_iff_iff, Status.isOptimal_iff, htrials t ht]
    simp [spares]
  refine ⟨?_, ?_, ?_⟩
  · -- an attempt without conflicts stays one when less is enabled
    have hdown : ∀ S T, S ⊆ T → spares conflicts T = true → spares conflicts S = true := by
      intro S T hST hT
      simp only [spares, decide_eq_true_eq] at hT ⊢
      exact fun id hid hS => hT id hid (hST hS)
    obtain ⟨-, hresolution⟩ := resolve_sifted binarySearch (by decide) r hn budget hdown hj
    rw [hresolution]
    exact (sift_conflicts (spares_present hexist hconflicts) (by simp)).trans (List.nil_append _)
  · -- at the beginning the toll of the first window is all there is to pay besides the conflicts
    have hstart : Sifting r.system r.scope.tolerance sorted [] sorted
        (switch (r.map (Recorder.watch sorted)) sorted false) :=
      ⟨holding_none r.system sorted, rfl, rfl, List.Subset.refl _, hn, by simp⟩
    have hcount := searchWindows_trials_le hexist hconflicts 0 hstart (by simp) hj
    have hfirst := toll_one_le (front_le conflicts sorted)
    rw [countP_conflicts hn hconflicts] at hcount
    calc (binarySearch.trials r sorted budget).length
      _ ≤ 0 + toll (front conflicts sorted) 1 + conflicts.card * (4 * (Nat.log 2 sorted.length + 1)) := hcount
      _ ≤ 4 * (Nat.log 2 sorted.length + 1) + conflicts.card * (4 * (Nat.log 2 sorted.length + 1)) := by omega
      _ = 4 * (conflicts.card + 1) * (Nat.log 2 sorted.length + 1) := by ring
  · rintro rfl
    have hall : ∀ t ∈ binarySearch.trials r sorted budget, t.status = .optimal :=
      fun t ht => (htrials t ht).mpr (by simp)
    have hcount := searchWindows_trials_of_optimal (Nat.pow_zero 2).symm hall
    exact hcount.trans (Nat.zero_add _)

/-- Four constraints over binary64, of which the third has no weight and cannot hold: it alone is suspended. -/
theorem binarySearch_resolve_isolates_one :
    let x : List (Term Float) := [⟨1, ⟨0, 0⟩⟩]
    let s : System Float := { System.empty 0 with
      slots := #[⟨0, none, [⟨0⟩, ⟨1⟩, ⟨2⟩, ⟨3⟩]⟩]
      attached := [⟨0, 0⟩]
      constraints := #[some (.build x .eq (.fixed 4)), some (.build x .le (.fixed 5)),
        some (.build [⟨0, ⟨0, 0⟩⟩] .eq (.fixed 1)), some (.build x .ge (.fixed 3))]
      order := [⟨0⟩, ⟨1⟩, ⟨2⟩, ⟨3⟩] }
    let r : Run Float (Engine Float KeyStream) := ⟨.kaczmarz ⟨2, 1, 1, []⟩, s, { tolerance := s.tolerance }⟩
    (binarySearch.resolve r [⟨0⟩, ⟨1⟩, ⟨2⟩, ⟨3⟩] 2).2.suspended = [⟨2⟩] ∧
      (binarySearch.trials r [⟨0⟩, ⟨1⟩, ⟨2⟩, ⟨3⟩] 2).length ≤ 24 := by
  intro x s r
  have hisolated := binarySearch_resolve_isolates r [⟨0⟩, ⟨1⟩, ⟨2⟩, ⟨3⟩] 2 (by decide) (by decide) {⟨2⟩} (by decide)
    (by decide +kernel)
  exact ⟨hisolated.1, hisolated.2.1⟩

end Strategy

end SoftLinear
