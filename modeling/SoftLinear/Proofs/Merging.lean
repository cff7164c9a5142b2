import SoftLinear.Proofs.Projection

/-!
# Merged terms

A constraint names each variable once; what it is built from may name a variable as often as it likes.  Merging takes
the terms one by one, so everything is proved by going from a list to the list with one more term
(`Term.merge_concat`):

* the variables are those of the list in order of first appearance (`Term.pairwise_merge`), and the weight of each is
  what the list adds up to for it, from left to right and beginning with the first (`Term.weight_merge`);
* in exact arithmetic the left side is the sum over the unmerged terms (`Constraint.lhs_build`).  It depends on the list
  only by what the weights of each variable add up to (`Term.sum_eq_sum_weight`), so terms may be split and reordered.
-/

namespace SoftLinear

namespace Term

variable {α : Type}

/-- The weights that a list of terms gives to a variable, in the order of the list. -/
def weights (ts : List (Term α)) (v : Variable) : List α := (ts.filter (·.var = v)).map (·.coefficient)

theorem weights_concat (ts : List (Term α)) (t : Term α) (v : Variable) :
    weights (ts ++ [t]) v = weights ts v ++ if t.var = v then [t.coefficient] else [] := by
  unfold weights
  by_cases h : t.var = v
  · simp [h]
  · simp [h]

theorem weights_eq_nil {ts : List (Term α)} {v : Variable} (h : v ∉ ts.map (·.var)) : weights ts v = [] := by
  unfold weights
  rw [List.map_eq_nil_iff, List.filter_eq_nil_iff]
  intro t ht
  simpa using fun e => h (List.mem_map.mpr ⟨t, ht, e⟩)

variable [Scalar α] {ts : List (Term α)} {t : Term α} {v : Variable}

theorem merge_concat (ts : List (Term α)) (t : Term α) : merge (ts ++ [t]) = t.absorb (merge ts) := by
  simp [merge]

theorem mem_vars_merge : v ∈ (merge ts).map (·.var) ↔ v ∈ ts.map (·.var) := by
  induction ts using List.reverseRecOn with
  | nil => rfl
  | append_singleton ts t ih =>
    rw [merge_concat, vars_absorb, List.map_append, List.mem_append, ← ih]
    split
    · rename_i hold
      refine ⟨.inl, fun h => h.elim id fun hv => ?_⟩
      obtain rfl : v = t.var := by simpa using hv
      exact hold
    · rw [List.mem_append]
      rfl

/-- A merged list names its variables in the order in which the list names them first. -/
theorem pairwise_merge (ts : List (Term α)) :
    ((merge ts).map (·.var)).Pairwise fun u v => (ts.map (·.var)).idxOf u < (ts.map (·.var)).idxOf v := by
  induction ts using List.reverseRecOn with
  | nil => exact List.Pairwise.nil
  | append_singleton ts t ih =>
    -- where a variable is named first does not change when a term is added at the end
    have hkept : ∀ v ∈ (merge ts).map (·.var), ((ts ++ [t]).map (·.var)).idxOf v = (ts.map (·.var)).idxOf v := by
      intro v hv
      rw [List.map_append, List.idxOf_append_of_mem (mem_vars_merge.mp hv)]
    have hold : ((merge ts).map (·.var)).Pairwise fun u v =>
        ((ts ++ [t]).map (·.var)).idxOf u < ((ts ++ [t]).map (·.var)).idxOf v := by
      refine ih.imp_of_mem fun hu hv hlt => ?_
      rwa [hkept _ hu, hkept _ hv]
    rw [merge_concat, vars_absorb]
    split
    · exact hold
    · rename_i hnew
      refine List.pairwise_append.mpr ⟨hold, List.pairwise_singleton _ _, fun u hu w hw => ?_⟩
      obtain rfl := List.mem_singleton.mp hw
      rw [hkept u hu, List.map_append, List.idxOf_append_of_notMem fun h => hnew (mem_vars_merge.mpr h)]
      exact (List.idxOf_lt_length_iff.mpr (mem_vars_merge.mp hu)).trans_le (Nat.le_add_right _ _)

theorem mem_absorb (hn : (ts.map (·.var)).Nodup) {x : Term α} (hx : x ∈ t.absorb ts) :
    x.var ≠ t.var ∧ x ∈ ts ∨
      x.var = t.var ∧ ((∃ s ∈ ts, s.var = t.var ∧ x.coefficient = s.coefficient + t.coefficient) ∨
        t.var ∉ ts.map (·.var) ∧ x.coefficient = t.coefficient) := by
  induction ts with
  | nil =>
    obtain rfl := List.mem_singleton.mp hx
    exact .inr ⟨rfl, .inr ⟨List.not_mem_nil, rfl⟩⟩
  | cons s ts ih =>
    obtain ⟨hs, hts⟩ := List.nodup_cons.mp hn
    unfold absorb at hx
    split at hx
    · rename_i hvar
      rcases List.mem_cons.mp hx with rfl | hx
      · exact .inr ⟨hvar, .inl ⟨s, List.mem_cons_self, hvar, rfl⟩⟩
      · -- the variable is named once, so not in the rest
        have hne : x.var ≠ t.var := fun e => hs (List.mem_map.mpr ⟨x, hx, e.trans hvar.symm⟩)
        exact .inl ⟨hne, List.mem_cons_of_mem s hx⟩
    · rename_i hvar
      rcases List.mem_cons.mp hx with rfl | hx
      · exact .inl ⟨hvar, List.mem_cons_self⟩
      rcases ih hts hx with ⟨hne, hmem⟩ | ⟨he, ⟨u, hu, hsum⟩ | ⟨hnew, hweight⟩⟩
      · exact .inl ⟨hne, List.mem_cons_of_mem s hmem⟩
      · exact .inr ⟨he, .inl ⟨u, List.mem_cons_of_mem s hu, hsum⟩⟩
      · refine .inr ⟨he, .inr ⟨?_, hweight⟩⟩
        rw [List.map_cons, List.mem_cons, not_or]
        exact ⟨Ne.symm hvar, hnew⟩

/-- **The weight of a merged term** is the sum of the weights of its variable, from left to right. -/
theorem weight_merge (ts : List (Term α)) :
    ∀ x ∈ merge ts, ∃ a rest, weights ts x.var = a :: rest ∧ x.coefficient = rest.foldl (· + ·) a := by
  induction ts using List.reverseRecOn with
  | nil => exact fun x hx => absurd hx List.not_mem_nil
  | append_singleton ts t ih =>
    intro x hx
    rw [merge_concat] at hx
    rw [weights_concat]
    rcases mem_absorb (nodup_merge ts) hx with ⟨hne, hmem⟩ | ⟨he, ⟨s, hs, hvar, hsum⟩ | ⟨hnew, hweight⟩⟩
    · rw [if_neg (Ne.symm hne), List.append_nil]
      exact ih x hmem
    · obtain ⟨a, rest, hweights, hcoefficient⟩ := ih s hs
      refine ⟨a, rest ++ [t.coefficient], ?_, ?_⟩
      · rw [if_pos he.symm, he, ← hvar, hweights, List.cons_append]
      · rw [List.foldl_append, ← hcoefficient]
        exact hsum
    · refine ⟨t.coefficient, [], ?_, hweight⟩
      rw [if_pos he.symm, he, weights_eq_nil fun h => hnew (mem_vars_merge.mpr h), List.nil_append]

end Term

/-! ## Left sides in exact arithmetic -/

namespace Term

variable {ts us : List (Term Rat)}

theorem sum_absorb (t : Term Rat) (ts : List (Term Rat)) (f : Variable → Rat) :
    ((t.absorb ts).map fun t => t.coefficient * f t.var).sum =
      (ts.map fun t => t.coefficient * f t.var).sum + t.coefficient * f t.var := by
  induction ts with
  | nil => simp [absorb]
  | cons s ts ih =>
    unfold absorb
    split
    · rename_i hvar
      simp only [List.map_cons, List.sum_cons, hvar]
      ring
    · simp only [List.map_cons, List.sum_cons, ih]
      ring

theorem sum_merge (ts : List (Term Rat)) (f : Variable → Rat) :
    ((merge ts).map fun t => t.coefficient * f t.var).sum = (ts.map fun t => t.coefficient * f t.var).sum := by
  induction ts using List.reverseRecOn with
  | nil => rfl
  | append_singleton ts t ih => rw [merge_concat, sum_absorb, ih, List.map_append, List.sum_append, List.map_singleton,
      List.sum_singleton]

theorem weights_cons (t : Term Rat) (ts : List (Term Rat)) (v : Variable) :
    (weights (t :: ts) v).sum = (if t.var = v then t.coefficient else 0) + (weights ts v).sum := by
  unfold weights
  by_cases h : t.var = v
  · simp [h]
  · simp [h]

/-- A sum over terms depends only on what the weights of each variable add up to. -/
theorem sum_eq_sum_weight {S : Finset Variable} (h : ∀ t ∈ ts, t.var ∈ S) (f : Variable → Rat) :
    (ts.map fun t => t.coefficient * f t.var).sum = ∑ v ∈ S, (weights ts v).sum * f v := by
  induction ts with
  | nil => simp [weights]
  | cons t ts ih =>
    obtain ⟨ht, hts⟩ := List.forall_mem_cons.mp h
    have hterm : t.coefficient * f t.var = ∑ v ∈ S, (if t.var = v then t.coefficient else 0) * f v := by
      simp only [ite_mul, zero_mul]
      rw [Finset.sum_ite_eq, if_pos ht]
    simp only [weights_cons, add_mul]
    rw [Finset.sum_add_distrib, ← hterm, ← ih hts, List.map_cons, List.sum_cons]

theorem sum_eq_of_weights (h : ∀ v, (weights ts v).sum = (weights us v).sum) (f : Variable → Rat) :
    (ts.map fun t => t.coefficient * f t.var).sum = (us.map fun t => t.coefficient * f t.var).sum := by
  let S : Finset Variable := (ts.map (·.var) ++ us.map (·.var)).toFinset
  have hts : ∀ t ∈ ts, t.var ∈ S :=
    fun t ht => List.mem_toFinset.mpr (List.mem_append_left _ (List.mem_map_of_mem ht))
  have hus : ∀ t ∈ us, t.var ∈ S :=
    fun t ht => List.mem_toFinset.mpr (List.mem_append_right _ (List.mem_map_of_mem ht))
  rw [sum_eq_sum_weight hts, sum_eq_sum_weight hus]
  exact Finset.sum_congr rfl fun v _ => by rw [h v]

theorem sum_weights_of_perm (h : ts.Perm us) (v : Variable) : (weights ts v).sum = (weights us v).sum :=
  ((h.filter _).map _).sum_eq

end Term

namespace Constraint

variable {ts us : List (Term Rat)} {relation : Relation} {rightSide : RightSide Rat}

theorem lhs_build (p : Point Rat) :
    (build ts relation rightSide).lhs p = (ts.map fun t => t.coefficient * p.coord t.var).sum := by
  rw [lhs_eq_sum]
  exact Term.sum_merge ts p.coord

/-- Two constraints of one relation and right side that agree in all that a point makes of them. -/
structure Alike (c d : Constraint Rat) : Prop where
  lhs : ∀ p, c.lhs p = d.lhs p
  error : ∀ p, c.error p = d.error p
  deficit : ∀ p, c.deficit p = d.deficit p
  isSatisfied : ∀ p tolerance, c.isSatisfied p tolerance = d.isSatisfied p tolerance

theorem alike_build (h : ∀ v, (Term.weights ts v).sum = (Term.weights us v).sum) :
    Alike (build ts relation rightSide) (build us relation rightSide) := by
  have hlhs : ∀ p, (build ts relation rightSide).lhs p = (build us relation rightSide).lhs p := by
    intro p
    rw [lhs_build, lhs_build, Term.sum_eq_of_weights h]
  have herror : ∀ p, (build ts relation rightSide).error p = (build us relation rightSide).error p := by
    intro p
    unfold error
    rw [hlhs]
    rfl
  refine ⟨hlhs, herror, fun p => ?_, fun p tolerance => ?_⟩
  · unfold deficit
    rw [hlhs]
    rfl
  · unfold isSatisfied
    rw [herror]

/-- **Merging keeps the meaning of a constraint.**  In every arithmetic, the terms of a new constraint name each
variable of the given list once and no others, in the order in which the list names them first, and the weight of a
variable is what the list adds up to for it, from left to right.  In exact arithmetic, the left side at any point is
the sum over the given terms, so two constraints with the same relation and right side mean the same if their lists
have the same sum of weights for each variable, however it is split into terms, and in particular if one list is the
other one reordered. -/
theorem build_merges :
    (∀ {α : Type} [Scalar α] (ts : List (Term α)) (relation : Relation) (rightSide : RightSide α),
      let merged := (build ts relation rightSide).terms
      (merged.map (·.var)).Nodup ∧
      (∀ v, v ∈ merged.map (·.var) ↔ v ∈ ts.map (·.var)) ∧
      ((merged.map (·.var)).Pairwise fun u v => (ts.map (·.var)).idxOf u < (ts.map (·.var)).idxOf v) ∧
      ∀ x ∈ merged, ∃ a rest, Term.weights ts x.var = a :: rest ∧ x.coefficient = rest.foldl (· + ·) a) ∧
    (∀ (ts : List (Term Rat)) (relation : Relation) (rightSide : RightSide Rat) (p : Point Rat),
      (build ts relation rightSide).lhs p = (ts.map fun t => t.coefficient * p.coord t.var).sum) ∧
    ∀ (ts us : List (Term Rat)) (relation : Relation) (rightSide : RightSide Rat),
      ((∀ v, (Term.weights ts v).sum = (Term.weights us v).sum) →
        Alike (build ts relation rightSide) (build us relation rightSide)) ∧
      (ts.Perm us → Alike (build ts relation rightSide) (build us relation rightSide)) := by
  refine ⟨?_, fun ts relation rightSide p => lhs_build p, fun ts us relation rightSide => ?_⟩
  · intro α _ ts relation rightSide merged
    exact ⟨Term.nodup_merge ts, fun v => Term.mem_vars_merge, Term.pairwise_merge ts, Term.weight_merge ts⟩
  · exact ⟨alike_build, fun hperm => alike_build (Term.sum_weights_of_perm hperm)⟩

/-- One variable is named three times, apart and with opposite signs; the same sum can be written with two terms in the
other order. -/
theorem build_merges_of_three :
    let ts : List (Term Rat) := [⟨2, ⟨0, 1⟩⟩, ⟨1, ⟨0, 0⟩⟩, ⟨-5, ⟨0, 1⟩⟩, ⟨4, ⟨0, 1⟩⟩]
    let us : List (Term Rat) := [⟨1, ⟨0, 0⟩⟩, ⟨1, ⟨0, 1⟩⟩]
    ((build ts .ge (.fixed 3)).terms.map fun t => (t.coefficient, t.var)) = [(1, ⟨0, 1⟩), (1, ⟨0, 0⟩)] ∧
      Alike (build ts .ge (.fixed 3)) (build us .ge (.fixed 3)) ∧
      Alike (build ts .ge (.fixed 3)) (build ts.reverse .ge (.fixed 3)) := by
  intro ts us
  obtain ⟨-, -, h⟩ := build_merges
  have hweights : ∀ v, (Term.weights ts v).sum = (Term.weights us v).sum := by
    intro v
    by_cases h0 : (⟨0, 0⟩ : Variable) = v
    · subst h0
      norm_num [Term.weights, ts, us]
    by_cases h1 : (⟨0, 1⟩ : Variable) = v
    · subst h1
      norm_num [Term.weights, ts, us]
    · simp [Term.weights, ts, us, h0, h1]
  exact ⟨by decide +kernel, (h ts us .ge (.fixed 3)).1 hweights,
    (h ts ts.reverse .ge (.fixed 3)).2 (List.reverse_perm ts).symm⟩

end Constraint

end SoftLinear
