import SoftLinear.Proofs.Projection

/-!
# Coefficient vectors

The left side of a constraint is a linear function of the point, and its coefficients are the weights by place
(`Constraint.weightAt`): what the terms add up to that name the variable at a place.

* `Constraint.lhs_shift`: a move along the weights of one constraint changes the left side of another by the step times
  their inner product (`Constraint.dot`);
* `Constraint.exists_isSatisfied_iff`: a constraint can be satisfied exactly when some coefficient is not zero, or when
  zero is a good value of its left side.

`Constraint.isSatisfiableAlone` goes by the squared norm instead, with the threshold below which a single weight counts as
zero.  `Constraint.isSatisfiableAlone_iff` says exactly for which constraints that is the same.
-/

namespace SoftLinear

namespace Constraint

variable {c : Constraint Rat} {p : Point Rat} {n : Nat} {tol : Rat}

/-- The coefficient at a place: the sum of the weights of the variable there. -/
def weightAt (c : Constraint Rat) (i : Nat) : Rat :=
  (c.terms.map fun t => if t.var.index = i then t.coefficient else 0).sum

/-- The inner product of two coefficient vectors. -/
def dot (c x : Constraint Rat) : Rat := (c.terms.map fun t => t.coefficient * x.weightAt t.var.index).sum

/-! ## The left side as a linear function -/

theorem lhs_eq_sum_weightAt (h : ∀ t ∈ c.terms, t.var.index < n) (p : Point Rat) :
    c.lhs p = ∑ i ∈ Finset.range n, c.weightAt i * p.coord ⟨0, i⟩ := by
  rw [lhs_eq_sum]
  unfold weightAt
  generalize c.terms = ts at h
  induction ts with
  | nil => simp
  | cons t ts ih =>
    obtain ⟨ht, hts⟩ := List.forall_mem_cons.mp h
    have hterm : t.coefficient * p.coord t.var =
        ∑ i ∈ Finset.range n, (if t.var.index = i then t.coefficient else 0) * p.coord ⟨0, i⟩ := by
      simp only [ite_mul, zero_mul]
      rw [Finset.sum_ite_eq, if_pos (Finset.mem_range.mpr ht)]
      rfl
    simp only [List.map_cons, List.sum_cons, add_mul]
    rw [Finset.sum_add_distrib, ← hterm, ih hts]

theorem lhs_move (c : Constraint Rat) {v : Variable} (hv : v.index < p.size) (a : Rat) :
    c.lhs (p.move v a) = c.lhs p + c.weightAt v.index * a := by
  rw [lhs_eq_sum, lhs_eq_sum]
  unfold weightAt
  induction c.terms with
  | nil => simp
  | cons t ts ih =>
    simp only [List.map_cons, List.sum_cons]
    rw [ih, Point.coord_move p v t.var a hv]
    split
    · rename_i h
      rw [show p.coord v = p.coord t.var by unfold Point.coord; rw [h]]
      ring
    · ring

/-- **A move along the weights of one constraint** changes the left side of another by the step times their inner
product. -/
theorem lhs_shift (x : Constraint Rat) (h : ∀ t ∈ c.terms, t.var.index < p.size) (s : Rat) :
    x.lhs (c.shift p s) = x.lhs p + s * c.dot x := by
  unfold shift dot
  generalize c.terms = ts at h
  induction ts generalizing p with
  | nil => simp
  | cons t ts ih =>
    obtain ⟨ht, hts⟩ := List.forall_mem_cons.mp h
    rw [List.foldl_cons, ih (by simpa using hts), lhs_move x ht, List.map_cons, List.sum_cons]
    ring

theorem coord_shift (h : ∀ t ∈ c.terms, t.var.index < p.size) (s : Rat) (v : Variable) :
    (c.shift p s).coord v = p.coord v + s * c.weightAt v.index := by
  unfold shift weightAt
  generalize c.terms = ts at h
  induction ts generalizing p with
  | nil => simp
  | cons t ts ih =>
    obtain ⟨ht, hts⟩ := List.forall_mem_cons.mp h
    rw [List.foldl_cons, ih (by simpa using hts), Point.coord_move p t.var v _ ht, List.map_cons, List.sum_cons]
    by_cases hv : v.index = t.var.index
    · rw [if_pos hv, if_pos hv.symm, show p.coord t.var = p.coord v by unfold Point.coord; rw [hv]]
      ring
    · rw [if_neg hv, if_neg (Ne.symm hv), zero_add]

theorem weightAt_of_mem (h : c.Spans n) {t : Term Rat} (ht : t ∈ c.terms) : c.weightAt t.var.index = t.coefficient := by
  have hdistinct := h.distinct
  unfold weightAt
  generalize c.terms = ts at hdistinct ht
  induction ts with
  | nil => cases ht
  | cons u ts ih =>
    obtain ⟨hu, hts⟩ := List.nodup_cons.mp hdistinct
    rw [List.map_cons, List.sum_cons]
    rcases List.mem_cons.mp ht with rfl | ht
    · have hrest : ts.map (fun w => if w.var.index = t.var.index then w.coefficient else 0) = ts.map fun _ => 0 := by
        refine List.map_congr_left fun w hw => if_neg fun e => hu ?_
        exact List.mem_map.mpr ⟨w, hw, e⟩
      rw [hrest, if_pos rfl]
      simp
    · have hne : u.var.index ≠ t.var.index := fun e => hu (List.mem_map.mpr ⟨t, ht, e.symm⟩)
      rw [if_neg hne, zero_add]
      exact ih hts ht

theorem dot_self (h : c.Spans n) : c.dot c = c.normSquared := by
  rw [normSquared_eq_sum]
  unfold dot
  rw [List.map_congr_left fun t ht => by rw [weightAt_of_mem h ht]]

theorem exists_term_of_coefficientOf {v : Variable} (h : c.coefficientOf v ≠ 0) :
    ∃ t ∈ c.terms, t.var = v ∧ c.coefficientOf v = t.coefficient := by
  unfold coefficientOf at h ⊢
  cases hfind : c.terms.find? (·.var = v) with
  | none => exact absurd (by rw [hfind]) h
  | some t => exact ⟨t, List.mem_of_find?_eq_some hfind, by simpa using List.find?_some hfind, rfl⟩

theorem abs_coefficient_le_absSum {t : Term Rat} (ht : t ∈ c.terms) : |t.coefficient| ≤ c.absSum := by
  rw [absSum_eq_sum]
  refine List.single_le_sum (fun a ha => ?_) _ (List.mem_map.mpr ⟨t, ht, rfl⟩)
  obtain ⟨u, -, rfl⟩ := List.mem_map.mp ha
  exact abs_nonneg _

/-! ## Which constraints can be satisfied -/

theorem errorAt_rhs (c : Constraint Rat) : c.errorAt c.rhs = 0 := by
  unfold errorAt
  cases c.relation <;> simp

theorem exists_bound (c : Constraint Rat) : ∃ n, ∀ t ∈ c.terms, t.var.index < n := by
  induction c.terms with
  | nil => exact ⟨0, by simp⟩
  | cons t ts ih =>
    obtain ⟨n, hn⟩ := ih
    refine ⟨max (t.var.index + 1) n, List.forall_mem_cons.mpr ⟨by omega, fun u hu => ?_⟩⟩
    exact (hn u hu).trans_le (le_max_right _ _)

theorem exists_term_of_weightAt {i : Nat} (h : c.weightAt i ≠ 0) : ∃ t ∈ c.terms, t.var.index = i := by
  by_contra hnone
  push Not at hnone
  apply h
  unfold weightAt
  rw [List.map_congr_left fun t ht => if_neg (hnone t ht)]
  simp

/-- Along a place whose coefficient is not zero, the left side takes on every value. -/
theorem exists_lhs_eq {i : Nat} (h : c.weightAt i ≠ 0) (a : Rat) : ∃ p : Point Rat, c.covers p = true ∧ c.lhs p = a := by
  obtain ⟨n, hn⟩ := c.exists_bound
  obtain ⟨t, ht, rfl⟩ := exists_term_of_weightAt h
  let origin : Point Rat := Array.replicate n 0
  have hsize : origin.size = n := Array.size_replicate
  refine ⟨origin.move t.var ((a - c.lhs origin) / c.weightAt t.var.index), ?_, ?_⟩
  · simpa [covers, hsize] using hn
  · rw [c.lhs_move (hsize.symm ▸ hn t ht)]
    field_simp
    ring

theorem lhs_eq_zero (h : ∀ i, c.weightAt i = 0) (p : Point Rat) : c.lhs p = 0 := by
  obtain ⟨n, hn⟩ := c.exists_bound
  rw [lhs_eq_sum_weightAt hn]
  exact Finset.sum_eq_zero fun i _ => by rw [h i, zero_mul]

theorem isSatisfied_iff : c.isSatisfied p tol = true ↔ |c.errorAt (c.lhs p)| < tol := by
  simp [isSatisfied, error]

/-- A constraint can be satisfied if some coefficient is not zero, or if zero is a good value of its left side; otherwise
no point satisfies it. -/
theorem exists_isSatisfied_iff (c : Constraint Rat) (htol : 0 < tol) :
    (∃ p : Point Rat, c.covers p = true ∧ c.isSatisfied p tol = true) ↔
      (∃ i, c.weightAt i ≠ 0) ∨ |c.errorAt 0| < tol := by
  by_cases hweight : ∃ i, c.weightAt i ≠ 0
  · obtain ⟨i, hi⟩ := hweight
    obtain ⟨p, hp, hlhs⟩ := exists_lhs_eq hi c.rhs
    have hsat : c.isSatisfied p tol = true := isSatisfied_iff.mpr (by rwa [hlhs, errorAt_rhs, abs_zero])
    exact iff_of_true ⟨p, hp, hsat⟩ (.inl ⟨i, hi⟩)
  · have hzero : ∀ i, c.weightAt i = 0 := by simpa using hweight
    rw [or_iff_right hweight]
    constructor
    · rintro ⟨p, -, hsat⟩
      rwa [isSatisfied_iff, lhs_eq_zero hzero] at hsat
    · intro hsat
      obtain ⟨n, hn⟩ := c.exists_bound
      refine ⟨Array.replicate n 0, by simpa [covers] using hn, ?_⟩
      rwa [isSatisfied_iff, lhs_eq_zero hzero]

theorem isSatisfiableAlone_eq_true :
    c.isSatisfiableAlone tol = true ↔ nearZero ≤ c.normSquared ∨ |c.errorAt 0| < tol := by
  simp [isSatisfiableAlone, isDegenerate]

/-- With different variables, some coefficient is not zero exactly when some weight is not zero. -/
theorem exists_weightAt_iff (h : c.Spans n) : (∃ i, c.weightAt i ≠ 0) ↔ ¬ ∀ t ∈ c.terms, t.coefficient = 0 := by
  push Not
  constructor
  · rintro ⟨i, hi⟩
    obtain ⟨t, ht, rfl⟩ := exists_term_of_weightAt hi
    exact ⟨t, ht, weightAt_of_mem h ht ▸ hi⟩
  · rintro ⟨t, ht, hne⟩
    exact ⟨t.var.index, by rwa [weightAt_of_mem h ht]⟩

theorem not_heavy_of_zero (h : ∀ t ∈ c.terms, t.coefficient = 0) : ¬ nearZero ≤ c.normSquared := by
  have hnorm : c.normSquared = 0 := by
    rw [normSquared_eq_sum, List.map_congr_left fun t ht => by rw [h t ht, mul_zero]]
    simp
  rw [hnorm]
  exact not_le.mpr nearZero_pos

/-- **When a constraint is said to be satisfiable alone, and when it is.**  In exact arithmetic, both agree exactly if zero
is a good value of the left side, or if the squared norm is not almost zero just when some coefficient is not zero.  For
the constraints of a system, whose variables are different, this asks of a bad value zero that the squared norm is not
almost zero or all weights are zero: small weights that are not zero are what is misjudged. -/
theorem isSatisfiableAlone_iff (c : Constraint Rat) (htol : 0 < tol) :
    let satisfiable := ∃ p : Point Rat, c.covers p = true ∧ c.isSatisfied p tol = true
    ((c.isSatisfiableAlone tol = true ↔ satisfiable) ↔
      |c.errorAt 0| < tol ∨ (nearZero ≤ c.normSquared ↔ ∃ i, c.weightAt i ≠ 0)) ∧
    ∀ n, c.Spans n → ((c.isSatisfiableAlone tol = true ↔ satisfiable) ↔
      |c.errorAt 0| < tol ∨ nearZero ≤ c.normSquared ∨ ∀ t ∈ c.terms, t.coefficient = 0) := by
  intro satisfiable
  have hgeneral : (c.isSatisfiableAlone tol = true ↔ satisfiable) ↔
      |c.errorAt 0| < tol ∨ (nearZero ≤ c.normSquared ↔ ∃ i, c.weightAt i ≠ 0) := by
    have hexists : satisfiable ↔ _ := exists_isSatisfied_iff c htol
    rw [isSatisfiableAlone_eq_true, hexists]
    by_cases hzero : |c.errorAt 0| < tol
    · simp only [hzero, or_true, true_or]
    · simp only [hzero, or_false, false_or]
  refine ⟨hgeneral, fun n hn => hgeneral.trans (or_congr_right ?_)⟩
  rw [exists_weightAt_iff hn]
  by_cases hnone : ∀ t ∈ c.terms, t.coefficient = 0
  · exact iff_of_true (iff_of_false (not_heavy_of_zero hnone) (not_not.mpr hnone)) (.inr hnone)
  · rw [or_iff_left hnone]
    exact iff_true_right hnone

/-- A constraint that both can be satisfied and is said to be. -/
theorem isSatisfiableAlone_iff_of_two :
    let c : Constraint Rat := .build [⟨2, ⟨0, 0⟩⟩] .eq (.fixed 5)
    c.isSatisfiableAlone 1e-10 = true ↔ ∃ p : Point Rat, c.covers p = true ∧ c.isSatisfied p 1e-10 = true := by
  intro c
  have hspans : c.Spans 1 := ⟨by decide, by decide⟩
  have htol : (0 : Rat) < 1e-10 := by norm_num
  exact ((isSatisfiableAlone_iff c htol).2 1 hspans).mpr (.inr (.inl (by decide +kernel)))

/-- The weight is far from almost zero, and `50000000` solves the equality; but its square is almost zero. -/
theorem isSatisfiableAlone_of_small_weight :
    let c : Constraint Rat := .build [⟨1e-7, ⟨0, 0⟩⟩] .eq (.fixed 5)
    c.isSatisfiableAlone 1e-10 = false ∧ c.covers #[50000000] = true ∧ c.isSatisfied #[50000000] 1e-10 = true := by
  decide +kernel

end Constraint

end SoftLinear
