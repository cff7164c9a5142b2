import SoftLinear.Proofs.Idempotence
import SoftLinear.Proofs.Passes
import SoftLinear.Proofs.Sample

/-!
# One conflict among constraints that fix their variables

In the sample with an isolated conflict each constraint fixes a variable of its own, all but one: that one says of the sum
of the variables before it what contradicts their values.  In exact arithmetic every strategy finds it.

* A pass over constraints that fix their variables gives the right values at once, from wherever it starts
  (`coord_pass_free`).  So an attempt without the conflict ends optimally after one pass at most (`attempt_free`), and one
  with the conflict and what stands before it fails (`conflict_violated`): adding and binary search see every verdict
  coming (`foresees_laid`).
* A pass over everything gives the variables behind the conflict their values and then meets nothing violated there, so
  after two passes the conflict is the last constraint that was met violated (`attempt_full`).  The attempt has moved the
  variables before it away from their values; without the conflict, one more pass sets them right (`attempt_behind`).
-/

namespace SoftLinear

theorem System.sortByPriority_of_equal {α : Type} [Scalar α] {s : System α} {ids : List ConstraintId} {a : α} (ha : a ≤ a)
    (h : ∀ id ∈ ids, s.penaltyOf id = a) : s.sortByPriority ids = ids := by
  rw [System.sortByPriority_eq]
  refine List.Pairwise.insertionSort_eq (List.pairwise_of_forall_mem_list fun x hx y hy => ?_)
  rw [System.Outweighs, h x hx, h y hy]
  exact ha

theorem System.value?_of_owns {α : Type} [Scalar α] {s : System α} {v : Variable} (h : s.owns v = true) :
    s.value? v = some (s.values.coord v) := by
  have hv : v.index < s.slots.size := by
    simp only [System.owns, Bool.and_eq_true, decide_eq_true_eq] at h
    exact h.2
  unfold System.value? System.slot? Point.coord System.values
  simp [h, hv, Array.getD_eq_getD_getElem?]

namespace ConflictSample

variable {i n k j l : Nat} {p : Point Rat} {ids : List ConstraintId} {tol : Rat}

/-- The table of the sample. -/
def rows (i n k : Nat) (id : ConstraintId) : Constraint Rat := row i n k id.index

/-- The violation of the conflict where the variables before it have the values that they should have. -/
def excess (k : Nat) : Rat := -1 - ∑ l ∈ Finset.range k, 10 * (l : Rat)

/-! ## Projecting onto one constraint -/

theorem error_free (h : j ≠ k) (p : Point Rat) : (row i n k j).error p = 10 * j - p.coord ⟨i, j⟩ := by
  rw [row_free h]
  show ((10 : Nat) : Rat) * j - (0 + 1 * p.coord ⟨i, j⟩) = _
  push_cast
  ring

theorem error_conflict (h : k ≤ n) (p : Point Rat) :
    (row i n k k).error p = -1 - ∑ l ∈ Finset.range k, p.coord ⟨i, l⟩ := by
  have hsum : (row i n k k).lhs p = ∑ l ∈ Finset.range k, p.coord ⟨i, l⟩ := by
    rw [Constraint.lhs_eq_sum, row_conflict h]
    simp only [List.map_map, Function.comp_def, one_mul]
    rfl
  rw [← hsum, row_conflict h]
  show (0 : Rat) - 1 - _ = _
  ring

theorem project_free (h : j ≠ k) (hj : j < p.size) :
    ((row i n k j).project p 1).residual = |10 * j - p.coord ⟨i, j⟩| ∧
      ∀ l, ((row i n k j).project p 1).point.coord ⟨i, l⟩ = if l = j then 10 * (j : Rat) else p.coord ⟨i, l⟩ := by
  have hnorm : (row i n k j : Constraint Rat).normSquared = 1 := by
    rw [Constraint.normSquared_eq_sum, row_free h]
    norm_num
  have hinside : ∀ t ∈ (row i n k j : Constraint Rat).terms, t.var.index < p.size := by
    rw [row_free h]
    simpa using hj
  rw [Constraint.project_full (by rw [row_free h]) (by rw [hnorm]; norm_num [nearZero]) p]
  refine ⟨by rw [error_free h], fun l => ?_⟩
  rw [Constraint.coord_shift hinside, Constraint.weightAt, hnorm, error_free h, row_free h]
  by_cases hl : j = l
  · simp [hl]
  · simp [hl, Ne.symm hl]

theorem normSquared_conflict (hkn : k ≤ n) : (row i n k k : Constraint Rat).normSquared = k := by
  rw [Constraint.normSquared_eq_sum, row_conflict hkn]
  simp [Function.comp_def]

theorem nearZero_le_conflict (hk : 0 < k) (hkn : k ≤ n) : nearZero ≤ (row i n k k : Constraint Rat).normSquared := by
  rw [normSquared_conflict hkn]
  calc (nearZero : Rat) ≤ 1 := by norm_num [nearZero]
    _ ≤ k := by exact_mod_cast hk

theorem project_conflict (hk : 0 < k) (hkn : k ≤ n) (hp : p.size = n) :
    ((row i n k k).project p 1).residual = |(row i n k k).error p| ∧
      ∀ l, ((row i n k k).project p 1).point.coord ⟨i, l⟩ =
        if l < k then p.coord ⟨i, l⟩ + (row i n k k).error p / k else p.coord ⟨i, l⟩ := by
  have hinside : ∀ t ∈ (row i n k k : Constraint Rat).terms, t.var.index < p.size := by
    rw [row_conflict hkn, hp]
    intro t ht
    obtain ⟨l, hl, rfl⟩ := List.mem_map.mp ht
    exact (List.mem_range.mp hl).trans_le hkn
  rw [Constraint.project_full (by rw [row_conflict hkn]) (nearZero_le_conflict hk hkn) p]
  refine ⟨rfl, fun l => ?_⟩
  have hweight : (row i n k k : Constraint Rat).weightAt l = if l < k then (1 : Rat) else 0 := by
    rw [Constraint.weightAt, row_conflict hkn, List.map_map]
    show ∑ u ∈ Finset.range k, (if u = l then (1 : Rat) else 0) = _
    simp
  rw [Constraint.coord_shift hinside, hweight, normSquared_conflict hkn]
  split <;> ring

/-! ## Passes -/

/-- A pass over constraints without the conflict gives their variables the right values, and leaves the others alone. -/
theorem coord_pass_free (hids : ∀ id ∈ ids, id.index ≠ k ∧ id.index < p.size) (l : Nat) :
    (pass (rows i n k) ids p).coord ⟨i, l⟩ = if ⟨l⟩ ∈ ids then 10 * (l : Rat) else p.coord ⟨i, l⟩ := by
  induction ids generalizing p with
  | nil => rfl
  | cons id ids ih =>
    obtain ⟨hfree, hinside⟩ := hids id List.mem_cons_self
    rw [pass_cons, ih (by simpa [rows] using fun x hx => hids x (List.mem_cons_of_mem id hx))]
    rw [rows, (project_free hfree hinside).2]
    by_cases hmem : ⟨l⟩ ∈ ids
    · simp [hmem]
    · by_cases hl : l = id.index
      · subst hl
        simp [hmem]
      · have hne : (⟨l⟩ : ConstraintId) ≠ id := fun e => hl (congrArg ConstraintId.index e)
        simp [hmem, hl, hne]

theorem met_pass_free (htol : 0 < tol) (hids : ∀ id ∈ ids, id.index ≠ k ∧ id.index < p.size) :
    Met (rows i n k) ids tol (pass (rows i n k) ids p) := by
  intro id hid
  rw [rows, error_free (hids id hid).1, coord_pass_free hids, if_pos hid, sub_self, abs_zero]
  exact htol

/-- No pass changes the variable of the conflict or one behind it, unless it comes to the constraint that fixes it. -/
theorem coord_pass_skipped (hk : 0 < k) (hkn : k ≤ n) (hp : p.size = n) (hids : ∀ id ∈ ids, id.index < n) (hl : k ≤ l)
    (hskip : ∀ id ∈ ids, id.index = k ∨ id.index ≠ l) :
    (pass (rows i n k) ids p).coord ⟨i, l⟩ = p.coord ⟨i, l⟩ := by
  induction ids generalizing p with
  | nil => rfl
  | cons id ids ih =>
    rw [pass_cons, ih ((Constraint.size_project _ _ _).trans hp) (fun x hx => hids x (List.mem_cons_of_mem id hx))
      fun x hx => hskip x (List.mem_cons_of_mem id hx)]
    rcases eq_or_ne id.index k with hid | hid
    · rw [rows, hid, (project_conflict hk hkn hp).2, if_neg (not_lt.mpr hl)]
    · have hne : l ≠ id.index := by
        rcases hskip id List.mem_cons_self with h | h
        · exact absurd h hid
        · exact h.symm
      have hinside : id.index < p.size := hp.symm ▸ hids id List.mem_cons_self
      rw [rows, (project_free hid hinside).2, if_neg hne]

theorem mem_of_split {before after : List ConstraintId} {id : ConstraintId}
    (h : places n = before ++ id :: after) : id.index < n ∧
      (∀ l, ⟨l⟩ ∈ before ↔ l < id.index) ∧ ∀ l, ⟨l⟩ ∈ after ↔ id.index < l ∧ l < n := by
  have hsorted : (before ++ id :: after).Pairwise (·.index < ·.index) := by
    rw [← h, places, List.pairwise_map]
    exact List.pairwise_lt_range
  obtain ⟨-, hright, hcross⟩ := List.pairwise_append.mp hsorted
  have hbehind := (List.pairwise_cons.mp hright).1
  have hmem : ∀ l, l < n ↔ ⟨l⟩ ∈ before ∨ (⟨l⟩ : ConstraintId) = id ∨ ⟨l⟩ ∈ after := by
    intro l
    rw [← List.mem_cons, ← List.mem_append, ← h]
    simp
  have hid : id.index < n := (hmem _).mpr (.inr (.inl rfl))
  have hlow : ∀ l, (⟨l⟩ : ConstraintId) ∈ before → l < id.index := fun l hl => hcross ⟨l⟩ hl id List.mem_cons_self
  have hhigh : ∀ l, (⟨l⟩ : ConstraintId) ∈ after → id.index < l := fun l hl => hbehind ⟨l⟩ hl
  refine ⟨hid, fun l => ⟨hlow l, fun hl => ?_⟩, fun l => ⟨fun hl => ⟨hhigh l hl, (hmem l).mpr (.inr (.inr hl))⟩, ?_⟩⟩
  · rcases (hmem l).mp (hl.trans hid) with hm | rfl | hm
    · exact hm
    · exact absurd hl (lt_irrefl _)
    · exact absurd (hhigh l hm) (not_lt.mpr hl.le)
  · rintro ⟨hl, hln⟩
    rcases (hmem l).mp hln with hm | rfl | hm
    · exact absurd (hlow l hm) (not_lt.mpr hl.le)
    · exact absurd hl (lt_irrefl _)
    · exact hm

theorem excess_le (k : Nat) : excess k ≤ -1 := by
  have hsum : 0 ≤ ∑ l ∈ Finset.range k, 10 * (l : Rat) := Finset.sum_nonneg fun l _ => by positivity
  unfold excess
  linarith

theorem le_abs_excess_div (hk : 0 < k) (hpos : 0 < tol) (htol : (k + 1) * tol ≤ 1) : tol ≤ |excess k / k| := by
  have hk' : (0 : Rat) < k := by exact_mod_cast hk
  have hexcess := excess_le k
  rw [abs_div, abs_of_pos hk', abs_of_nonpos (by linarith), le_div_iff₀ hk']
  linarith

section Full

variable {before after : List ConstraintId} {id : ConstraintId}

theorem free_before (hp : p.size = n) (h : places n = before ++ ⟨k⟩ :: after) :
    ∀ x ∈ before, x.index ≠ k ∧ x.index < p.size := by
  obtain ⟨hk, hbefore, -⟩ := mem_of_split h
  intro x hx
  have hlt : x.index < k := (hbefore x.index).mp hx
  exact ⟨hlt.ne, hp.symm ▸ hlt.trans hk⟩

theorem error_reached (hp : p.size = n) (h : places n = before ++ ⟨k⟩ :: after) :
    (row i n k k).error (pass (rows i n k) before p) = excess k := by
  obtain ⟨hk, hbefore, -⟩ := mem_of_split h
  rw [error_conflict hk.le, excess]
  congr 1
  refine Finset.sum_congr rfl fun l hl => ?_
  rw [coord_pass_free (free_before hp h), if_pos ((hbefore l).mpr (Finset.mem_range.mp hl))]

theorem residual_full (hk : 0 < k) (hkn : k < n) (hp : p.size = n)
    (h : places n = before ++ id :: after) (hid : k ≤ id.index) :
    ((rows i n k id).project (pass (rows i n k) before p) 1).residual =
      if id.index = k then |excess k| else |10 * id.index - p.coord ⟨i, id.index⟩| := by
  obtain ⟨hlt, hbefore, -⟩ := mem_of_split h
  have hsize : (pass (rows i n k) before p).size = n := (size_pass _ _ _).trans hp
  split
  · rename_i he
    obtain rfl : id = ⟨k⟩ := congrArg ConstraintId.mk he
    rw [rows, (project_conflict hk hkn.le hsize).1, error_reached hp h]
  · rename_i hne
    have hinside : id.index < (pass (rows i n k) before p).size := hsize.symm ▸ hlt
    rw [rows, (project_free hne hinside).1, coord_pass_skipped hk hkn.le hp ?_ hid ?_]
    · exact fun x hx => ((hbefore x.index).mp hx).trans hlt
    · exact fun x hx => .inr ((hbefore x.index).mp hx).ne

theorem coord_full (hk : 0 < k) (hkn : k < n) (hp : p.size = n) (hl : l < n) :
    (pass (rows i n k) (places n) p).coord ⟨i, l⟩ =
      if l < k then 10 * l + excess k / k else if l = k then p.coord ⟨i, k⟩ else 10 * (l : Rat) := by
  obtain ⟨before, after, h⟩ : ∃ before after, places n = before ++ ⟨k⟩ :: after :=
    List.append_of_mem (by simpa using hkn)
  obtain ⟨-, hbefore, hafter⟩ := mem_of_split h
  have hsize : (pass (rows i n k) before p).size = n := (size_pass _ _ _).trans hp
  have hbehind : ∀ x ∈ after, x.index ≠ k ∧ x.index < ((row i n k k).project (pass (rows i n k) before p) 1).point.size := by
    intro x hx
    obtain ⟨hx, hxn⟩ := (hafter x.index).mp hx
    rw [Constraint.size_project, hsize]
    exact ⟨hx.ne', hxn⟩
  rw [h, pass_append, pass_cons, rows, coord_pass_free hbehind, (project_conflict hk hkn.le hsize).2, error_reached hp h,
    coord_pass_free (free_before hp h)]
  simp only [hbefore, hafter]
  rcases lt_trichotomy l k with hlk | rfl | hlk
  · simp [hlk, hlk.le]
  · simp
  · simp [hlk, hl, hlk.not_gt, hlk.ne']

theorem iterate_full (hk : 0 < k) (hkn : k < n) (hp : p.size = n) (m : Nat) :
    ((pass (rows i n k) (places n))^[m] p).size = n ∧
      ((pass (rows i n k) (places n))^[m] p).coord ⟨i, k⟩ = p.coord ⟨i, k⟩ := by
  induction m with
  | zero => exact ⟨hp, rfl⟩
  | succ m ih =>
    rw [Function.iterate_succ_apply', size_pass, coord_full hk hkn ih.1 hkn]
    simpa using ih

/-- From the second pass on, nothing behind the conflict is met violated. -/
theorem residual_again (hk : 0 < k) (hkn : k < n) (hp : p.size = n) (h : places n = before ++ id :: after)
    (hid : k ≤ id.index) (m : Nat) :
    ((rows i n k id).project (pass (rows i n k) before ((pass (rows i n k) (places n))^[m + 1] p)) 1).residual =
      if id.index = k then |excess k| else 0 := by
  rw [residual_full hk hkn (iterate_full hk hkn hp (m + 1)).1 h hid]
  split
  · rfl
  · rename_i hne
    rw [Function.iterate_succ_apply', coord_full hk hkn (iterate_full hk hkn hp m).1 (mem_of_split h).1,
      if_neg (not_lt.mpr hid), if_neg hne, sub_self, abs_zero]

end Full

/-! ## The contradiction -/

/-- Where the variables before the conflict are close to their values, the conflict is violated. -/
theorem conflict_violated (hkn : k ≤ n) (htol : (k + 1) * tol ≤ 1)
    (h : ∀ l < k, |10 * (l : Rat) - p.coord ⟨i, l⟩| < tol) : tol ≤ |(row i n k k).error p| := by
  have hsum : -(k * tol) ≤ ∑ l ∈ Finset.range k, p.coord ⟨i, l⟩ := by
    calc -(k * tol) = ∑ _l ∈ Finset.range k, -tol := by simp
      _ ≤ ∑ l ∈ Finset.range k, p.coord ⟨i, l⟩ := by
        refine Finset.sum_le_sum fun l hl => ?_
        have hclose := (abs_lt.mp (h l (Finset.mem_range.mp hl))).2
        have hnonneg : (0 : Rat) ≤ l := Nat.cast_nonneg l
        linarith
  rw [error_conflict hkn, abs_sub_comm]
  refine le_trans ?_ (le_abs_self _)
  linarith

theorem not_met_full (hkn : k < n) (htol : (k + 1) * tol ≤ 1) :
    ¬ Met (rows i n k) (places n) tol p := by
  intro hmet
  have hconflict := hmet ⟨k⟩ (by simpa using hkn)
  refine absurd hconflict (not_lt.mpr (conflict_violated hkn.le htol fun l hl => ?_))
  have hfree := hmet ⟨l⟩ (by simpa using hl.trans hkn)
  rwa [rows, error_free hl.ne] at hfree

theorem tolerance_bounds (hpos : 0 < tol) (hkn : k < n) (htol : (n + 1) * tol ≤ 1) :
    (k + 1) * tol ≤ 1 ∧ tol < 1 := by
  have hle : (k : Rat) + 1 ≤ n := by exact_mod_cast hkn
  have hone : (0 : Rat) ≤ k := Nat.cast_nonneg k
  constructor
  · nlinarith
  · nlinarith

/-! ## Attempts -/

section Attempts

open Conflict

variable {γ : Type} {s : System Rat} {r : Run Rat (Engine Rat γ)} {sorted : List ConstraintId} {budget : Nat}

/-- A run works on a system with Kaczmarz at factor one: values, pivots and flags apart it has not changed anything. -/
structure WorksOn (s : System Rat) (r : Run Rat (Engine Rat γ)) : Prop where
  outline : s.SameOutline r.system
  tolerance : r.scope.tolerance = s.tolerance
  projects : Projects r.engine

theorem WorksOn.attempt [Generator γ] (h : WorksOn s r) (sorted : List ConstraintId) (budget : Nat) :
    WorksOn s (attempt r sorted budget).1 where
  outline := h.outline.trans (attempt_rules r sorted budget).toSameOutline
  tolerance := ((Follows.refl r).attempt sorted budget).tolerance.trans h.tolerance
  projects := attempt_projects h.projects budget

theorem WorksOn.suspend (h : WorksOn s r) (id : ConstraintId) : WorksOn s (suspend r id) where
  outline := h.outline.trans (System.setEnabledAll_sameOutline _ _ _)
  tolerance := h.tolerance
  projects := h.projects

variable (hs : s.Laid i tol n ((List.range n).map (row i n k)))

include hs

theorem constraint_laid {id : ConstraintId} {c : Constraint Rat} (hc : s.constraint? id = some c) :
    id.index < n ∧ c = rows i n k id := by
  rw [hs.constraint? id.index, List.getElem?_map, Option.map_eq_some_iff] at hc
  obtain ⟨j, hj, rfl⟩ := hc
  obtain ⟨hlt, rfl⟩ := List.getElem?_eq_some_iff.mp hj
  rw [List.length_range] at hlt
  exact ⟨hlt, by rw [List.getElem_range]; rfl⟩

theorem constraint_of_lt (hl : l < n) : s.constraint? ⟨l⟩ = some (row i n k l) := by
  rw [hs.constraint? l]
  simp [hl]

theorem activeOf_conflict (hk : k ≤ n) : s.activeOf ⟨i, k⟩ = [] := by
  rw [List.eq_nil_iff_forall_not_mem]
  intro id hid
  obtain ⟨c, hc, hnamed⟩ := (hs.linked.mem _ _).mp hid
  obtain ⟨-, rfl⟩ := constraint_laid hs hc
  exact not_mem_row hk id.index hnamed

theorem tabled_live (h : WorksOn s r) : Tabled (rows i n k) (r.system.live sorted) := by
  intro x hx
  obtain ⟨c, hc, hbare⟩ := h.outline.exists_constraint? (System.mem_live.mp hx).2.1
  obtain ⟨-, rfl⟩ := constraint_laid hs hc
  refine ⟨hbare, ?_⟩
  rw [Constraint.isHard, rows, row_penalty, decide_eq_true_eq]

theorem lt_of_live (h : WorksOn s r) {id : ConstraintId} (hid : id ∈ r.system.liveIds sorted) : id.index < n := by
  obtain ⟨x, hx, rfl⟩ := List.mem_map.mp hid
  obtain ⟨c, hc, -⟩ := h.outline.exists_constraint? (System.mem_live.mp hx).2.1
  exact (constraint_laid hs hc).1

theorem size_values_laid (h : WorksOn s r) : r.system.values.size = n := by
  rw [System.size_values, h.outline.slots_size, hs.size]

variable [Generator γ]

theorem attempt_passes_laid (h : WorksOn s r) (sorted : List ConstraintId) (budget : Nat) :
    ∃ count, Passes (rows i n k) (r.system.liveIds sorted) tol r.system.values budget count
      (Conflict.attempt r sorted budget).1.system.values (Conflict.attempt r sorted budget).2 := by
  have htol : r.scope.tolerance = tol := h.tolerance.trans hs.tolerance
  rw [← htol]
  refine attempt_passes h.projects ?_ (tabled_live hs h) budget
  rw [h.tolerance]
  exact hs.wellFormed.tolerance

/-- An attempt without the conflict ends optimally, after one pass at most. -/
theorem attempt_free (h : WorksOn s r) (hfree : ∀ id ∈ r.system.liveIds sorted, id.index ≠ k) (hbudget : 0 < budget) :
    (Conflict.attempt r sorted budget).2.status = .optimal ∧
      ((Conflict.attempt r sorted budget).1.system.values = r.system.values ∧
          Met (rows i n k) (r.system.liveIds sorted) tol r.system.values ∨
        (Conflict.attempt r sorted budget).1.system.values =
          pass (rows i n k) (r.system.liveIds sorted) r.system.values) := by
  have htol : 0 < tol := hs.tolerance ▸ hs.wellFormed.tolerance
  have hmet : Met (rows i n k) (r.system.liveIds sorted) tol (pass (rows i n k) (r.system.liveIds sorted) r.system.values) :=
    met_pass_free htol fun id hid => ⟨hfree id hid, (size_values_laid hs h).symm ▸ lt_of_live hs h hid⟩
  obtain ⟨count, hcount⟩ := attempt_passes_laid hs h sorted budget
  match count, hcount with
  | 0, hcount =>
    have hrest : Met (rows i n k) (r.system.liveIds sorted) tol r.system.values :=
      hcount.reason.resolve_left (by omega)
    exact ⟨hcount.status.mpr hrest, .inl ⟨hcount.values, hrest⟩⟩
  | 1, hcount => exact ⟨hcount.status.mpr hmet, .inr hcount.values⟩
  | count + 2, hcount => exact absurd hmet (hcount.unmet 1 (by omega))

/-- An attempt with everything fails, and asks for the conflict: behind it the last pass meets nothing violated. -/
theorem attempt_full (h : WorksOn s r) (hall : r.system.liveIds (places n) =
      places n) (hk : 0 < k) (hkn : k < n) (htol : (n + 1) * tol ≤ 1) (hbudget : 2 ≤ budget) :
    let x := Conflict.attempt r (places n) budget
    asks? (places n) x = some ⟨k⟩ ∧
      x.1.system.values.coord ⟨i, 0⟩ = excess k / k ∧ x.1.system.values.coord ⟨i, k⟩ = r.system.values.coord ⟨i, k⟩ := by
  intro x
  have hpos : 0 < tol := hs.tolerance ▸ hs.wellFormed.tolerance
  obtain ⟨htolk, htolone⟩ := tolerance_bounds hpos hkn htol
  have hsize := size_values_laid hs h
  obtain ⟨count, hcount⟩ := attempt_passes_laid hs h (places n) budget
  rw [hall] at hcount
  -- nothing meets all constraints, so the budget is used up, and the last pass was not the first one
  obtain ⟨m, rfl⟩ : ∃ m, count = m + 2 := by
    have := hcount.reason.resolve_right (not_met_full hkn htolk)
    exact ⟨count - 2, by omega⟩
  have hresidual : ∀ before id after, places n = before ++ id :: after → k ≤ id.index →
      x.2.residuals.of id = if id.index = k then |excess k| else 0 := by
    intro before id after hsplit hid
    have hnew : id ∉ after := fun hmem => absurd (((mem_of_split hsplit).2.2 id.index).mp hmem).1 (lt_irrefl _)
    rw [hcount.residuals (m + 1) rfl before id after hsplit hnew, residual_again hk hkn hsize hsplit hid m]
  have hvalues : x.1.system.values = _ := hcount.values
  rw [hvalues, (iterate_full hk hkn hsize _).2]
  refine ⟨asks_eq_some.mpr ⟨mt hcount.status.mp (not_met_full hkn htolk), ?_⟩, ?_, rfl⟩
  · have hscope : x.1.scope.tolerance = tol := (h.attempt (places n) budget).tolerance.trans hs.tolerance
    obtain ⟨before, after, hsplit⟩ : ∃ before after, places n = before ++ ⟨k⟩ :: after :=
      List.append_of_mem (mem_places.mpr hkn)
    have hon : x.1.system.flag? ⟨k⟩ = some true := by
      have hlive : (⟨k⟩ : ConstraintId) ∈ r.system.liveIds (places n) := hall.symm ▸ mem_places.mpr hkn
      rw [(attempt_rules r (places n) budget).flags]
      exact (System.mem_liveIds.mp hlive).2
    -- the conflict is still violated when it is visited, and what comes behind it is not
    refine victim_of_last hsplit hon ?_ fun id hid => ?_
    · rw [hscope, hresidual before ⟨k⟩ after hsplit le_rfl, if_pos rfl, abs_of_nonpos (by linarith [excess_le k])]
      linarith [excess_le k]
    · obtain ⟨hbehind, hlt⟩ := ((mem_of_split hsplit).2.2 id.index).mp hid
      obtain ⟨before', after', hsplit'⟩ := List.append_of_mem (mem_places.mpr hlt)
      rw [hscope, hresidual before' id after' hsplit' hbehind.le, if_neg hbehind.ne']
      exact not_le.mpr hpos
  · rw [Function.iterate_succ_apply', coord_full hk hkn (iterate_full hk hkn hsize _).1 (hk.trans hkn), if_pos hk]
    simp

end Attempts

/-! ## Solves -/

/-- Values that a search may come to: each variable is at zero or has its value, and that of the conflict is at zero. -/
def Expected (i n k : Nat) (p : Point Rat) : Prop :=
  p.coord ⟨i, k⟩ = 0 ∧ ∀ l < n, p.coord ⟨i, l⟩ = 0 ∨ p.coord ⟨i, l⟩ = 10 * (l : Rat)

theorem Expected.pass (h : Expected i n k p) (hids : ∀ id ∈ ids, id.index ≠ k ∧ id.index < p.size) :
    Expected i n k (pass (rows i n k) ids p) := by
  constructor
  · rw [coord_pass_free hids, if_neg fun hmem => (hids _ hmem).1 rfl]
    exact h.1
  · intro l hl
    rw [coord_pass_free hids]
    split
    · exact .inr rfl
    · exact h.2 l hl

/-- Expected values at which every constraint but the conflict holds are the right ones. -/
theorem Expected.eq_of_met (h : Expected i n k p) (htol : tol < 1)
    (hmet : ∀ l < n, l ≠ k → |10 * (l : Rat) - p.coord ⟨i, l⟩| < tol) :
    ∀ l < n, p.coord ⟨i, l⟩ = if l = k then 0 else 10 * (l : Rat) := by
  intro l hl
  split
  · rename_i he
    exact he ▸ h.1
  · rename_i hne
    rcases h.2 l hl with hzero | hright
    · have hclose := hmet l hl hne
      rw [hzero, sub_zero, abs_of_nonneg (by positivity)] at hclose
      have hl0 : l = 0 := by
        by_contra hpos
        have : (1 : Rat) ≤ l := by exact_mod_cast Nat.one_le_iff_ne_zero.mpr hpos
        linarith
      rw [hzero, hl0]
      simp
    · exact hright

section Solves

open Conflict ResolvingSolver

variable {γ : Type} {s : System Rat} {d : ResolvingSolver (Engine Rat γ)} {budget : Nat}
  (hs : s.Laid i tol n ((List.range n).map (row i n k)))

include hs

theorem lift_laid (hnone : d.suspended = []) : (d.lift s).values = Array.replicate n 0 ∧
    d.agenda s = places n := by
  have hlift : d.lift s = s.seed d.reset := by
    unfold lift
    rw [hnone]
    rfl
  have houtline := (s.seed_sameRules d.reset).toSameOutline
  have horder : (s.seed d.reset).order = places n := by
    rw [houtline.order, hs.order, List.length_map, List.length_range]
    rfl
  have hconstraint : ∀ id ∈ (s.seed d.reset).order, s.constraint? id = some (rows i n k id) := by
    intro id hid
    rw [houtline.order, hs.wellFormed.listed] at hid
    obtain ⟨c, hc⟩ := Option.isSome_iff_exists.mp hid
    rw [hc, (constraint_laid hs hc).2]
  have henabled : (s.seed d.reset).enabledIds = places n := by
    rw [← horder, System.enabledIds, System.liveIds_eq_filter, List.filter_eq_self]
    intro id hid
    rw [(s.seed_sameRules d.reset).flags, System.flag?, hconstraint id hid, Option.map_some, rows, row_enabled,
      decide_eq_true_eq]
  rw [agenda, hlift, henabled]
  constructor
  · unfold System.seed System.resetValues System.fillUnset
    split
    · simp [System.values_mapValues, hs.values]
    · simp [System.values_mapValues, hs.values, Scalar.unset]
  · -- all constraints are hard, so sorting leaves the list in its order
    refine System.sortByPriority_of_equal (a := hardPenalty) le_rfl fun id hid => ?_
    rw [houtline.penaltyOf, System.penaltyOf, hconstraint id (horder ▸ hid)]
    exact row_penalty _ _ _ _

theorem isHopeless_laid {u : System Rat} (hu : s.SameOutline u) (hk : 0 < k) (hkn : k < n) (tol : Rat) :
    isHopeless u tol ⟨k⟩ = false := by
  rw [isHopeless_of_outline hu]
  unfold isHopeless Constraint.isSatisfiableAlone Constraint.isDegenerate
  simp [constraint_of_lt hs hkn, nearZero_le_conflict hk hkn.le]

theorem contradicted_laid (hkn : k < n) (htol : (k + 1) * tol ≤ 1) :
    Contradicted s tol (places n) [⟨k⟩] := by
  intro before id after hsplit hid p hp
  obtain rfl := List.mem_singleton.mp hid
  obtain ⟨-, hbefore, -⟩ := mem_of_split hsplit
  simp only [rat_isNaN, Constraint.isSatisfied, rat_abs, decide_eq_false_iff_not, not_lt, true_and]
  by_cases hclose : ∀ l < k, |10 * (l : Rat) - p.coord ⟨i, l⟩| < tol
  · exact ⟨⟨k⟩, by simp, _, constraint_of_lt hs hkn, conflict_violated hkn.le htol hclose⟩
  · simp only [not_forall, not_lt] at hclose
    obtain ⟨l, hl, hmissed⟩ := hclose
    refine ⟨⟨l⟩, ?_, _, constraint_of_lt hs (hl.trans hkn), ?_⟩
    · simp [(hbefore l).mpr hl, hl.ne]
    · rwa [error_free hl.ne]

theorem coord_lift (hnone : d.suspended = []) (hl : l < n) : (d.lift s).values.coord ⟨i, l⟩ = 0 := by
  rw [(lift_laid hs hnone).1]
  simp [Point.coord, Array.getD_eq_getD_getElem?, hl]

variable [Generator γ]

theorem foresees_laid {base : System Rat} (hbase : s.SameOutline base) (hkn : k < n) (htol : (k + 1) * tol ≤ 1)
    (hbudget : 0 < budget) : Foresees base tol (places n) budget [⟨k⟩] (fun _ => True)
      (Projects (γ := γ)) (Expected i n k) := by
  have hpos : 0 < tol := hs.tolerance ▸ hs.wellFormed.tolerance
  have hn := nodup_places n
  refine ⟨fun r hr => attempt_projects hr budget, ?_, ?_⟩
  · exact ((contradicted_laid hs hkn htol).of_outline hbase).refuses hpos hn budget _
  · intro done window pending r r₁ outcome committed hsplit hsearched hprojects hexpected ha hclean
    set r' := (switch r window true).map Recorder.engine
    have hvalues : r'.system.values = committed :=
      (r.system.values_setEnabledAll window true).trans hsearched.values
    have hworks : WorksOn s r' :=
      ⟨hbase.trans (hsearched.marked.outline.trans (System.setEnabledAll_sameOutline _ _ _)),
        hsearched.tolerance.trans hs.tolerance.symm, hprojects⟩
    -- the conflict is neither in the window nor among what was kept
    have hfree : ∀ id ∈ r'.system.liveIds (places n), id.index ≠ k := by
      intro id hid he
      obtain rfl : id = ⟨k⟩ := congrArg ConstraintId.mk he
      obtain ⟨hmarked, -⟩ := hsearched.tried hsplit hn ha
      rw [show r'.system = (switch r window true).system from rfl, ← (attempt_spec ha).1.liveIds_eq,
        hmarked.liveIds_conflicts hsplit hn] at hid
      rcases List.mem_append.mp hid with hdone | hwindow
      · simp at hdone
      · exact hclean _ hwindow (List.mem_singleton.mpr rfl)
    obtain ⟨hstatus, hend⟩ := attempt_free hs hworks hfree hbudget
    rw [attempt_erase ha] at hstatus hend
    refine ⟨Status.isOptimal_iff.mpr hstatus, ?_⟩
    rcases hend with ⟨hend, -⟩ | hend
    · rw [show r₁.system.values = committed from hend.trans hvalues]
      exact hexpected
    · rw [show r₁.system.values = pass (rows i n k) _ committed from hvalues ▸ hend]
      refine hexpected.pass fun id hid => ⟨hfree id hid, ?_⟩
      rw [← hvalues, size_values_laid hs hworks]
      exact lt_of_live hs hworks hid

/-- How a solve of the sample ends. -/
structure Isolates (i n k : Nat) (out : Run Rat (Engine Rat γ) × Resolution) : Prop where
  status : out.2.status = .optimal
  suspended : out.2.suspended = [⟨k⟩]
  values : ∀ l < n, out.1.system.values.coord ⟨i, l⟩ = if l = k then 0 else 10 * (l : Rat)

theorem search_isolates (hstrategy : d.strategy ≠ .removing) (hnone : d.suspended = []) (hprojects : Projects d.engine)
    (hk : 0 < k) (hkn : k < n) (htol : (n + 1) * tol ≤ 1) (hbudget : 2 ≤ d.budget.getD (Relaxation.budget d.engine)) :
    Isolates i n k (d.resolution s) := by
  obtain ⟨-, hagenda⟩ := lift_laid (d := d) hs hnone
  have hlift := d.lift_sameOutline s
  have hscope : (d.lift s).tolerance = tol := hlift.tolerance.trans hs.tolerance
  obtain ⟨htolk, htolone⟩ := tolerance_bounds (hs.tolerance ▸ hs.wellFormed.tolerance) hkn htol
  have hforeseen : Foresees (d.task s).system (d.task s).scope.tolerance (d.agenda s)
      (d.budget.getD (Relaxation.budget d.engine)) [⟨k⟩] (fun _ => True) (Projects (γ := γ)) (Expected i n k) := by
    rw [hagenda, show (d.task s).scope.tolerance = tol from hscope]
    exact foresees_laid hs hlift hkn htolk (by omega)
  obtain ⟨hsuspended, hexpected⟩ := Strategy.resolve_foreseen hstrategy (nodup_agenda hs.wellFormed)
    (fun id hid => (mem_agenda hs.wellFormed).mp hid) (tolerance_task hs.wellFormed) hforeseen hprojects
    ⟨coord_lift hs hnone hkn, fun l hl => .inl (coord_lift hs hnone hl)⟩ fun _ _ => trivial
  have hone : (d.agenda s).filter (· ∈ [(⟨k⟩ : ConstraintId)]) = [⟨k⟩] := by
    refine filter_mem_of_sublist (List.singleton_sublist.mpr ?_) (nodup_agenda hs.wellFormed)
    simpa [hagenda] using hkn
  have hgone : (d.resolution s).2.suspended = [⟨k⟩] := hsuspended.trans hone
  obtain ⟨-, hstatus, hrested⟩ := resolution_rested (d := d) hstrategy hs.wellFormed
  -- the conflict could hold alone, so it does not make the solve infeasible
  refine ⟨?_, hgone, hexpected.eq_of_met htolone fun l hl hne => ?_⟩
  · rw [hstatus, hgone]
    simp [isHopeless_laid hs hlift hk hkn]
  · rw [hscope] at hrested
    have hmet := hrested.of_outline hlift.symm ⟨l⟩ (by simpa [hagenda] using hl) (by simpa [hgone] using hne) _
      (constraint_of_lt hs hl) (rat_isNaN _)
    rw [Constraint.isSatisfied, rat_abs, error_free hne, decide_eq_true_eq] at hmet
    exact hmet

/-- An attempt without the conflict that does not start where everything else holds makes one pass. -/
theorem attempt_behind {r : Run Rat (Engine Rat γ)} (h : WorksOn s r)
    (hlive : r.system.liveIds (places n) = (places n).filter (· ∉ [(⟨k⟩ : ConstraintId)])) (hk : 0 < k) (hkn : k < n)
    (hmissed : tol ≤ |r.system.values.coord ⟨i, 0⟩|) (hbudget : 0 < budget) :
    (attempt r (places n) budget).2.status = .optimal ∧ ∀ l < n, (attempt r (places n) budget).1.system.values.coord ⟨i, l⟩ =
      if l = k then r.system.values.coord ⟨i, k⟩ else 10 * (l : Rat) := by
  have hmem : ∀ id, id ∈ r.system.liveIds (places n) ↔ id.index < n ∧ id.index ≠ k := by
    rintro ⟨l⟩
    rw [hlive]
    simp
  obtain ⟨hstatus, hend⟩ := attempt_free hs h (fun id hid => ((hmem id).mp hid).2) hbudget
  refine ⟨hstatus, fun l hl => ?_⟩
  rcases hend with ⟨-, hmet⟩ | hend
  · -- the first variable is off its value, so the run does not end before the first pass
    have hfirst := hmet ⟨0⟩ ((hmem _).mpr ⟨hk.trans hkn, hk.ne⟩)
    rw [rows, error_free hk.ne, Nat.cast_zero, mul_zero, zero_sub, abs_neg] at hfirst
    exact absurd hmissed (not_le.mpr hfirst)
  · have hinside : ∀ id ∈ r.system.liveIds (places n), id.index ≠ k ∧ id.index < r.system.values.size := by
      intro id hid
      rw [size_values_laid hs h]
      exact ((hmem id).mp hid).symm
    rw [hend, coord_pass_free hinside]
    by_cases hlk : l = k
    · simp [hmem, hlk]
    · simp [hmem, hlk, hl]

theorem removing_isolates (hstrategy : d.strategy = .removing) (hnone : d.suspended = []) (hprojects : Projects d.engine)
    (hk : 0 < k) (hkn : k < n) (htol : (n + 1) * tol ≤ 1) (hbudget : 2 ≤ d.budget.getD (Relaxation.budget d.engine)) :
    Isolates i n k (d.resolution s) := by
  obtain ⟨-, hagenda⟩ := lift_laid (d := d) hs hnone
  have hpos : 0 < tol := hs.tolerance ▸ hs.wellFormed.tolerance
  have hworks : WorksOn s (d.task s) := ⟨d.lift_sameOutline s, (d.lift_sameOutline s).tolerance, hprojects⟩
  have hon : ∀ id ∈ places n, (d.task s).system.flag? id = some true :=
    fun id hid => (mem_agenda hs.wellFormed).mp (hagenda ▸ hid)
  have hall : (d.task s).system.liveIds (places n) = places n := by
    rw [System.liveIds_eq_filter, List.filter_eq_self]
    simpa using hon
  have hresolution : d.resolution s =
      removeRounds (places n) (d.budget.getD (Relaxation.budget d.engine)) (places n).length (d.task s) [] := by
    unfold resolution
    rw [hstrategy, hagenda]
    rfl
  generalize d.budget.getD (Relaxation.budget d.engine) = budget at hresolution hbudget
  obtain ⟨hasks, hfirst, hlast⟩ := attempt_full hs hworks hall hk hkn htol hbudget
  have hremoval : Removal (places n) budget (d.task s) [⟨k⟩] := removal_cons.mpr ⟨hasks, removal_nil _⟩
  have hvalues : (suspendEach (places n) budget (d.task s) [⟨k⟩]).system.values =
      (attempt (d.task s) (places n) budget).1.system.values := System.values_setEnabledAll _ _ _
  have hworks' : WorksOn s (suspendEach (places n) budget (d.task s) [⟨k⟩]) :=
    (hworks.attempt (places n) budget).suspend ⟨k⟩
  -- the failed attempt has left the first variable off its value, so the next one has to make a pass
  have hmissed : tol ≤ |(suspendEach (places n) budget (d.task s) [⟨k⟩]).system.values.coord ⟨i, 0⟩| := by
    rw [hvalues, hfirst]
    exact le_abs_excess_div hk hpos (tolerance_bounds hpos hkn htol).1
  obtain ⟨hstatus, hend⟩ := attempt_behind hs hworks' (hremoval.suspended hon).liveIds_eq hk hkn hmissed
    (show 0 < budget by omega)
  have hsettled : Settled (places n) budget (d.task s) [⟨k⟩] := if_pos (Status.isOptimal_iff.mpr hstatus)
  have hrounds : [(⟨k⟩ : ConstraintId)].length ≤ (places n).length := by
    rw [length_places, List.length_singleton]
    omega
  rw [hresolution, removeRounds_eq hremoval hsettled hrounds]
  refine ⟨?_, rfl, fun l hl => (hend l hl).trans ?_⟩
  · have hhope : ∀ tol, isHopeless (attemptAfter (places n) budget (d.task s) [⟨k⟩]).1.system tol ⟨k⟩ = false :=
      isHopeless_laid hs (hworks'.attempt (places n) budget).outline hk hkn
    have hoptimal : (attemptAfter (places n) budget (d.task s) [⟨k⟩]).2.status = .optimal := hstatus
    simp [settle, hhope, hoptimal]
  · rw [hvalues, hlast, show (d.task s).system = d.lift s from rfl, coord_lift hs hnone hkn]

end Solves

end ConflictSample

namespace Model

open ConflictSample

/-- **One conflict among constraints that fix their variables is found by every strategy.**  Build the sample with an
isolated conflict in a new model that solves by Kaczmarz at factor one with at least two sweeps per attempt, with a
tolerance that is small for its size, and solve.  Whatever the strategy, the solve ends optimally and suspends the conflict
and nothing else, and every variable has its value in the end but that of the conflict, which no constraint names: it is at
zero. -/
theorem solve_isolated_spec {γ : Type} [Generator γ] (i : Nat) (strategy : Strategy) (b : Nat) (cooling : Rat)
    (prepared : List ConstraintId) (reset : Bool) (budget : Option Nat) (n k : Nat) (t : Rat) (hk : 0 < k) (hkn : k < n)
    (ht : 0 < t) (hsmall : (n + 1) * t ≤ 1) (hbudget : 2 ≤ budget.getD b) :
    let engine : Engine Rat γ := .kaczmarz ⟨b, 1, cooling, prepared⟩
    let fresh := ((Model.new i (some (ResolvingSolver.new strategy engine reset budget))).setTolerance t).1
    let built := isolated n k fresh
    let solved := built.2.solve
    built.1 = .ok ⟨(List.range n).map (Variable.mk i), (List.range n).map ConstraintId.mk, [⟨k⟩]⟩ ∧
      solved.2.1 = .optimal ∧ solved.1.solver.map (·.suspended) = some [⟨k⟩] ∧
      solved.1.system.activeOf ⟨i, k⟩ = [] ∧
      ∀ j < n, solved.1.system.flag? ⟨j⟩ = some (decide (j ≠ k)) ∧
        solved.1.system.value? ⟨i, j⟩ = some (if j = k then 0 else 10 * (j : Rat)) := by
  intro engine fresh built solved
  have htol : System.isTolerance t = true := by simp [System.isTolerance, Scalar.isFinite, ht]
  obtain ⟨s, hbuilt, hs⟩ := isolated_laid (m := fresh) (System.laid_empty i htol) (fun _ _ _ => rfl) (by decide +kernel) hk hkn
  set d := ResolvingSolver.new strategy engine reset budget
  -- removing starts with everything enabled, the searches with nothing
  have hisolates : Isolates i n k (d.resolution s) := by
    have hprojects : Conflict.Projects d.engine := ⟨_, rfl, rfl⟩
    by_cases hstrategy : strategy = .removing
    · exact removing_isolates hs hstrategy rfl hprojects hk hkn hsmall hbudget
    · exact search_isolates hs hstrategy rfl hprojects hk hkn hsmall hbudget
  have hsolved : solved = (⟨(d.resolution s).1.system, some (d.solve s).solver, some (d.resolution s).2.status⟩,
      (d.resolution s).2.status, (d.solve s).log) := by
    show (isolated n k fresh).2.solve = _
    rw [hbuilt]
    rfl
  have hagenda := (lift_laid (d := d) hs rfl).2
  obtain ⟨hmarked, -⟩ := d.resolution_marked hs.wellFormed
  have houtline : s.SameOutline (d.resolution s).1.system := (d.lift_sameOutline s).trans hmarked.outline
  rw [hsolved]
  refine ⟨congrArg Prod.fst hbuilt, hisolates.status, congrArg some hisolates.suspended, ?_, fun j hj => ⟨?_, ?_⟩⟩
  · exact (houtline.sameTerms.active _).trans (activeOf_conflict hs hkn.le)
  · show (d.resolution s).1.system.flag? ⟨j⟩ = _
    rw [hmarked.flags, hagenda, hisolates.suspended]
    simp [hj]
  · have howns : (d.resolution s).1.system.owns ⟨i, j⟩ = true := by
      simp [System.owns, houtline.id, houtline.slots_size, hs.id, hs.size, hj]
    show (d.resolution s).1.system.value? ⟨i, j⟩ = _
    rw [System.value?_of_owns howns, hisolates.values j hj]

/-- Seven constraints of which the fourth conflicts with the three before it. -/
theorem solve_isolated_of_seven :
    let engine : Engine Rat KeyStream := .kaczmarz ⟨2, 1, 1, []⟩
    let fresh := ((Model.new 0 (some (ResolvingSolver.new .removing engine false none))).setTolerance (1 / 8)).1
    let solved := (isolated 7 3 fresh).2.solve
    solved.2.1 = .optimal ∧ solved.1.solver.map (·.suspended) = some [⟨3⟩] ∧ solved.1.system.flag? ⟨6⟩ = some true ∧
      solved.1.system.value? ⟨0, 6⟩ = some 60 := by
  obtain ⟨-, hstatus, hsuspended, -, hend⟩ := solve_isolated_spec (γ := KeyStream) 0 .removing 2 1 [] false none 7 3 (1 / 8)
    (by decide) (by decide) (by norm_num) (by norm_num) (by decide)
  obtain ⟨hflag, hvalue⟩ := hend 6 (by decide)
  refine ⟨hstatus, hsuspended, hflag, hvalue.trans ?_⟩
  norm_num

end Model

end SoftLinear
