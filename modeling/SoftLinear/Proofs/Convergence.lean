import Mathlib.Algebra.Order.Archimedean.Basic
import SoftLinear.Proofs.Projection

/-!
# Kaczmarz converges on consistent systems

A sweep is a list of projections, each onto a constraint and with a factor between zero and two.  None of them leads away
from a common solution `z`, but a later one may undo what an earlier one has achieved, so it is not enough to look at one
projection at a time.

What holds of a whole sweep is `exists_gap_bound`: the square of any violation *at its beginning* is at most a constant
times the decrease of the squared distance to `z` over the sweep.  The proof goes from the end of the list to its front.
Before a projection a constraint further on is violated by at most what it is violated after it, plus a multiple of the
deficit that is projected away, and that deficit has brought the point closer to `z`.

A sweep that finds a violation of at least the tolerance thus decreases the squared distance by a fixed amount, which can
happen only finitely often (`Kaczmarz.relax_converges`).
-/

namespace SoftLinear

open Progress

/-! ## Lists of projections -/

section Follow

/-- The point after a list of projections, each onto a constraint and with a factor. -/
def follow (steps : List (Constraint Rat × Rat)) (p : Point Rat) : Point Rat :=
  steps.foldl (fun q y => (y.1.project q y.2).point) p

/-- A projection that leads towards `z`, among points of a size. -/
structure Leads (n : Nat) (z : Point Rat) (y : Constraint Rat × Rat) : Prop where
  spans : y.1.Spans n
  norm : nearZero ≤ y.1.normSquared
  holds : y.1.error z = 0
  pos : 0 < y.2
  lt_two : y.2 < 2

variable {n : Nat} {z : Point Rat} {steps : List (Constraint Rat × Rat)}

theorem Leads.gain_pos {y : Constraint Rat × Rat} (h : Leads n z y) : 0 < y.2 * (2 - y.2) / y.1.normSquared :=
  div_pos (mul_pos h.pos (by linarith [h.lt_two])) (lt_of_lt_of_le Constraint.nearZero_pos h.norm)

theorem Leads.sq_deficit_le {y : Constraint Rat × Rat} (h : Leads n z y) {p : Point Rat} (hp : p.size = n) :
    y.1.deficit p ^ 2 ≤
      (y.2 * (2 - y.2) / y.1.normSquared)⁻¹ * (z.gap p - z.gap (y.1.project p y.2).point) := by
  have hgap := Constraint.gap_project_le y.2 (hp ▸ h.spans) h.norm h.holds h.pos.le
  rw [inv_mul_eq_div, le_div_iff₀ h.gain_pos]
  linarith

/-- Before a projection a constraint is violated by at most what it is violated after it, and a multiple of the deficit
that is projected away. -/
theorem Leads.sq_deficit_disturbed {y : Constraint Rat × Rat} (h : Leads n z y) {A : Rat} (hy : y.1.absSum ≤ A)
    {x : Constraint Rat} (hx : x.absSum ≤ A) (p : Point Rat) :
    x.deficit p ^ 2 ≤ 2 * x.deficit (y.1.project p y.2).point ^ 2 +
      2 * (A * A * (y.2 / y.1.normSquared)) ^ 2 * y.1.deficit p ^ 2 := by
  have hA : 0 ≤ A := x.absSum_nonneg.trans hx
  have hscale : 0 ≤ y.2 / y.1.normSquared :=
    div_nonneg h.pos.le (lt_of_lt_of_le Constraint.nearZero_pos h.norm).le
  -- a deficit changes by no more than the left side, and the step changes that by a multiple of `y`'s deficit
  have hdist : |x.deficit p - x.deficit (y.1.project p y.2).point| ≤
      |A * A * (y.2 / y.1.normSquared) * y.1.deficit p| := by
    calc _ ≤ |x.lhs p - x.lhs (y.1.project p y.2).point| := x.deficit_lipschitz p _
      _ = |x.lhs (y.1.project p y.2).point - x.lhs p| := abs_sub_comm _ _
      _ ≤ x.absSum * y.1.absSum * (y.2 / y.1.normSquared) * |y.1.deficit p| :=
        Constraint.lhs_project_le p y.2 x h.norm h.pos.le
      _ ≤ A * A * (y.2 / y.1.normSquared) * |y.1.deficit p| := by
        refine mul_le_mul_of_nonneg_right (mul_le_mul_of_nonneg_right ?_ hscale) (abs_nonneg _)
        exact mul_le_mul hx hy y.1.absSum_nonneg hA
      _ = |A * A * (y.2 / y.1.normSquared) * y.1.deficit p| := by
        rw [abs_mul, abs_of_nonneg (mul_nonneg (mul_nonneg hA hA) hscale)]
  have hsq := sq_le_sq.mpr hdist
  rw [mul_pow] at hsq
  nlinarith [sq_nonneg (x.deficit p - 2 * x.deficit (y.1.project p y.2).point)]

/-- **What a sweep achieves**: the square of any deficit at its beginning is at most a constant times the decrease of the
squared distance to `z`. -/
theorem exists_gap_bound {A : Rat} (hsteps : ∀ y ∈ steps, Leads n z y) (hA : ∀ y ∈ steps, y.1.absSum ≤ A) :
    ∃ K, 0 ≤ K ∧ ∀ p : Point Rat, p.size = n → z.gap (follow steps p) ≤ z.gap p ∧
      ∀ x ∈ steps, x.1.deficit p ^ 2 ≤ K * (z.gap p - z.gap (follow steps p)) := by
  induction steps with
  | nil => exact ⟨0, le_rfl, fun p _ => ⟨le_rfl, by simp⟩⟩
  | cons y ys ih =>
    obtain ⟨K, hK, hys⟩ := ih (fun x hx => hsteps x (List.mem_cons_of_mem _ hx))
      fun x hx => hA x (List.mem_cons_of_mem _ hx)
    have hy := hsteps y List.mem_cons_self
    have hgain := inv_pos.mpr hy.gain_pos
    have hB := sq_nonneg (A * A * (y.2 / y.1.normSquared))
    generalize hg : (y.2 * (2 - y.2) / y.1.normSquared)⁻¹ = G at hgain
    generalize hb : (A * A * (y.2 / y.1.normSquared)) ^ 2 = B at hB
    refine ⟨G + (2 * K + 2 * B * G), by positivity, ?_⟩
    intro p hp
    have hfirst := hy.sq_deficit_le hp
    obtain ⟨hdown, hlater⟩ := hys (y.1.project p y.2).point ((Constraint.size_project y.1 p y.2).trans hp)
    rw [hg] at hfirst
    have hcloser : 0 ≤ z.gap p - z.gap (y.1.project p y.2).point :=
      (mul_nonneg_iff_of_pos_left hgain).mp ((sq_nonneg _).trans hfirst)
    have hend : 0 ≤ z.gap (y.1.project p y.2).point - z.gap (follow ys (y.1.project p y.2).point) := by linarith
    have hsplit : z.gap p - z.gap (follow (y :: ys) p) = (z.gap p - z.gap (y.1.project p y.2).point) +
        (z.gap (y.1.project p y.2).point - z.gap (follow ys (y.1.project p y.2).point)) := by
      rw [show follow (y :: ys) p = follow ys (y.1.project p y.2).point from rfl]
      ring
    -- the sweep decreases the distance by `d` at the first constraint and by `e` at the others
    generalize z.gap p - z.gap (y.1.project p y.2).point = d at hfirst hcloser hsplit
    generalize z.gap (y.1.project p y.2).point - z.gap (follow ys (y.1.project p y.2).point) = e at hlater hend hsplit
    have hexpand : (G + (2 * K + 2 * B * G)) * (d + e) =
        G * d + G * e + 2 * (K * d) + 2 * (K * e) + 2 * (B * (G * d)) + 2 * (B * (G * e)) := by ring
    have hGe := mul_nonneg hgain.le hend
    have hKd := mul_nonneg hK hcloser
    have hBGe := mul_nonneg hB hGe
    refine ⟨by linarith, ?_⟩
    rw [hsplit, hexpand]
    intro x hx
    rcases List.mem_cons.mp hx with rfl | hx
    · -- the first constraint is projected on at once
      have hKe := mul_nonneg hK hend
      have hBGd := mul_nonneg hB (mul_nonneg hgain.le hcloser)
      linarith
    · -- another one has its deficit disturbed by the first step, by no more than that step gains
      have hafter := hlater x hx
      have hbefore := hy.sq_deficit_disturbed (hA y List.mem_cons_self) (hA x (List.mem_cons_of_mem _ hx)) p
      rw [hb] at hbefore
      have hGd := mul_nonneg hgain.le hcloser
      have hBd := mul_le_mul_of_nonneg_left hfirst hB
      linarith

theorem exists_absSum_le (steps : List (Constraint Rat × Rat)) : ∃ A, ∀ y ∈ steps, y.1.absSum ≤ A := by
  refine ⟨(steps.map fun y => y.1.absSum).sum, fun y hy => ?_⟩
  refine List.single_le_sum ?_ _ (List.mem_map_of_mem hy)
  intro a ha
  obtain ⟨x, -, rfl⟩ := List.mem_map.mp ha
  exact x.1.absSum_nonneg

theorem sum_decrease {K t : Rat} {F : Point Rat → Point Rat} {p : Point Rat} {j : Nat}
    (h : ∀ i < j, t ≤ K * (z.gap (F^[i] p) - z.gap (F^[i + 1] p))) : j * t ≤ K * (z.gap p - z.gap (F^[j] p)) := by
  induction j with
  | zero => simp
  | succ j ih =>
    have hlast := h j (Nat.lt_succ_self j)
    have hrest := ih fun i hi => h i (Nat.lt_succ_of_lt hi)
    rw [Nat.cast_succ]
    linarith

end Follow

/-! ## Sweeps of the relaxation -/

namespace Kaczmarz

variable (k : Kaczmarz Rat) (list : List (ConstraintId × Constraint Rat)) (p : Progress Rat)

/-- The projections of a sweep at a strength. -/
def steps (strength : Rat) : List (Constraint Rat × Rat) :=
  list.map (fun x => (x.2, if x.2.isHard then k.factor else strength * x.2.penalty)) ++
    if (list.map (·.2)).any (!·.isHard) then ((list.map (·.2)).filter (·.isHard)).map fun c => (c, k.factor) else []

theorem foldl_visit : (list.foldl k.visit p).strength = p.strength ∧ (list.foldl k.visit p).point =
    follow (list.map fun x => (x.2, if x.2.isHard then k.factor else p.strength * x.2.penalty)) p.point := by
  induction list generalizing p with
  | nil => exact ⟨rfl, rfl⟩
  | cons x list ih => exact ih (k.visit p x)

theorem foldl_enforce (cs : List (Constraint Rat)) : (cs.foldl k.enforce p).strength = p.strength ∧
    (cs.foldl k.enforce p).point = follow (cs.map fun c => (c, k.factor)) p.point := by
  induction cs generalizing p with
  | nil => exact ⟨rfl, rfl⟩
  | cons c cs ih => exact ih (k.enforce p c)

theorem moves_follow : (k.moves list p).strength = p.strength * k.cooling ∧
    (k.moves list p).point = follow (k.steps list p.strength) p.point := by
  obtain ⟨hs, hp⟩ := k.foldl_visit list p
  unfold moves enforceHard steps follow
  simp only
  split
  · obtain ⟨hs', hp'⟩ := k.foldl_enforce (list.foldl k.visit p) ((list.map (·.2)).filter (·.isHard))
    rw [hs', hp', hs, hp, List.foldl_append]
    exact ⟨rfl, rfl⟩
  · rw [hs, hp, List.append_nil]
    exact ⟨rfl, rfl⟩

theorem iterate_follow (hcooling : k.cooling = 1) (b j : Nat) :
    ((k.sweep list b)^[j] p).strength = p.strength ∧
      ((k.sweep list b)^[j] p).point = (follow (k.steps list p.strength))^[j] p.point := by
  induction j with
  | zero => exact ⟨rfl, rfl⟩
  | succ j ih =>
    obtain ⟨hs, hp⟩ := k.moves_follow list ((k.sweep list b)^[j] p)
    rw [Function.iterate_succ_apply', Function.iterate_succ_apply', ← ih.2]
    refine ⟨hs.trans ?_, hp.trans (by rw [ih.1])⟩
    rw [ih.1, hcooling, mul_one]

theorem exists_violated {cs : List (Constraint Rat)} {q : Point Rat} {tol : Rat} (htol : 0 < tol)
    (h : tol ≤ (Summary.measure cs q).max) : ∃ c ∈ cs, tol ≤ |c.error q| := by
  have key : ∀ (cs : List (Constraint Rat)) acc,
      tol ≤ cs.foldl (fun acc c => Scalar.larger acc (Scalar.abs (c.error q))) acc →
      tol ≤ acc ∨ ∃ c ∈ cs, tol ≤ |c.error q| := by
    intro cs
    induction cs with
    | nil => exact fun acc h => .inl h
    | cons c cs ih =>
      intro acc h
      rcases ih _ h with hacc | ⟨d, hd, hle⟩
      · simp only [rat_larger, rat_abs] at hacc
        rcases le_max_iff.mp hacc with hacc | hc
        · exact .inl hacc
        · exact .inr ⟨c, List.mem_cons_self, hc⟩
      · exact .inr ⟨d, List.mem_cons_of_mem _ hd, hle⟩
  rw [Summary.measure_max] at h
  rcases key cs 0 h with h0 | hc
  · exact absurd htol (not_lt.mpr h0)
  · exact hc

theorem mem_steps {strength : Rat} {y : Constraint Rat × Rat} (hy : y ∈ k.steps list strength) :
    ∃ x ∈ list, y.1 = x.2 ∧ (y.2 = k.factor ∨ y.2 = strength * x.2.penalty) := by
  rcases List.mem_append.mp hy with hy | hy
  · obtain ⟨x, hx, rfl⟩ := List.mem_map.mp hy
    refine ⟨x, hx, rfl, ?_⟩
    split
    · exact .inl rfl
    · exact .inr rfl
  · split at hy
    · obtain ⟨c, hc, rfl⟩ := List.mem_map.mp hy
      obtain ⟨x, hx, rfl⟩ := List.mem_map.mp (List.mem_of_mem_filter hc)
      exact ⟨x, hx, rfl, .inl rfl⟩
    · cases hy

/-- As long as the strength does not exceed the factor, the factors of a sweep are between zero and two. -/
theorem factor_mem_steps {s : System Rat} {strength : Rat} {y : Constraint Rat × Rat} (hy : y ∈ k.steps list strength)
    (hfits : ∀ x ∈ list, x.2.Fits s) (hlt : k.factor < 2) (hpos : 0 < strength) (hle : strength ≤ k.factor) :
    0 < y.2 ∧ y.2 < 2 := by
  obtain ⟨x, hx, -, hfactor⟩ := k.mem_steps list hy
  have hpenalty := (hfits x hx).penalty
  simp only [isPenalty, Bool.and_eq_true, decide_eq_true_eq] at hpenalty
  rcases hfactor with hfactor | hfactor
  · rw [hfactor]
    exact ⟨hpos.trans_le hle, hlt⟩
  · rw [hfactor]
    refine ⟨mul_pos hpos hpenalty.1.2, lt_of_le_of_lt ?_ hlt⟩
    exact (mul_le_of_le_one_right hpos.le hpenalty.2).trans hle

theorem steps_lead {s : System Rat} {prepared : List ConstraintId} {z : Point Rat}
    (hfits : ∀ x ∈ s.live prepared, x.2.Fits s) (hpos : 0 < k.factor) (hlt : k.factor < 2)
    (hnorm : ∀ x ∈ s.live prepared, nearZero ≤ x.2.normSquared) (hz : ∀ x ∈ s.live prepared, x.2.error z = 0) :
    ∀ y ∈ k.steps (s.live prepared) k.factor, Leads s.slots.size z y := by
  intro y hy
  obtain ⟨hpos', hlt'⟩ := k.factor_mem_steps _ hy hfits hlt hpos le_rfl
  obtain ⟨x, hx, hc, -⟩ := k.mem_steps _ hy
  exact ⟨hc ▸ (hfits x hx).spans, hc ▸ hnorm x hx, hc ▸ hz x hx, hpos', hlt'⟩

/-- A sweep that finds a residual of at least the tolerance comes closer to `z` by a fixed amount. -/
theorem sq_tolerance_le {z q : Point Rat} {tol K strength : Rat} (htol : 0 < tol)
    (hK : ∀ y ∈ k.steps list strength, y.1.deficit q ^ 2 ≤ K * (z.gap q - z.gap (follow (k.steps list strength) q)))
    (h : tol ≤ (Summary.measure (list.map (·.2)) q).max) :
    tol ^ 2 ≤ K * (z.gap q - z.gap (follow (k.steps list strength) q)) := by
  obtain ⟨c, hc, hle⟩ := exists_violated htol h
  obtain ⟨x, hx, rfl⟩ := List.mem_map.mp hc
  have hstep := hK _ (List.mem_append_left _ (List.mem_map.mpr ⟨x, hx, rfl⟩))
  calc tol ^ 2 ≤ |x.2.error q| ^ 2 := pow_le_pow_left₀ htol.le hle 2
    _ = x.2.deficit q ^ 2 := by rw [← Constraint.abs_deficit, sq_abs]
    _ ≤ _ := hstep

/-- **Kaczmarz converges on every consistent system.**  In exact arithmetic, with a factor strictly between zero and two
and no cooling, on constraints whose weights do not vanish and that have a common solution: from some budget on, every
run ends optimally, after a number of sweeps that does not depend on the budget.  That the constraints fit is no more
than the edits of a system see to (`System.WellFormed.fits`). -/
theorem relax_converges (r : Run Rat (Kaczmarz Rat)) (htol : 0 < r.scope.tolerance) (hpos : 0 < r.engine.factor)
    (hlt : r.engine.factor < 2) (hcooling : r.engine.cooling = 1)
    (hfits : ∀ x ∈ r.system.live r.engine.prepared, x.2.Fits r.system)
    (hnorm : ∀ x ∈ r.system.live r.engine.prepared, nearZero ≤ x.2.normSquared) (z : Point Rat)
    (hz : ∀ x ∈ r.system.live r.engine.prepared, x.2.error z = 0) :
    ∃ N₀, ∀ N ≥ N₀, (Relaxation.relax r N).2.status = .optimal ∧ (Relaxation.relax r N).2.sweeps ≤ N₀ := by
  have hlead := r.engine.steps_lead hfits hpos hlt hnorm hz
  obtain ⟨A, hA⟩ := exists_absSum_le (r.engine.steps (r.system.live r.engine.prepared) r.engine.factor)
  obtain ⟨K, hK, hbound⟩ := exists_gap_bound hlead hA
  -- more sweeps than the distance at the start can pay for
  obtain ⟨N₀, hN₀⟩ := exists_nat_gt (K * z.gap r.system.values / r.scope.tolerance ^ 2)
  refine ⟨N₀, fun N hN => ?_⟩
  obtain ⟨j, hj, he, hsweeps⟩ := relax_halts r N
  set list := r.system.live r.engine.prepared
  set start := Progress.start (list.map (·.2)) r.system r.engine.factor r.scope
  have htracked := (r.engine.sweep_isSweep list N).tracked_iterate
    (start_tracked (list.map (·.2)) r.system r.engine.factor r.scope)
  have hpoint := fun i => (r.engine.iterate_follow list start hcooling N i).2
  have hstatus : (Relaxation.relax r N).2.status = ((r.engine.sweep list N)^[j] start).classify := by
    rw [← he]
    rfl
  -- each of the sweeps has decreased the squared distance, which is not negative
  have hsum : j * r.scope.tolerance ^ 2 ≤ K * (z.gap r.system.values -
      z.gap ((follow (r.engine.steps list r.engine.factor))^[j] r.system.values)) := by
    apply sum_decrease
    intro i hi
    have hunmet := hj.unmet i hi
    rw [(htracked i).summary, (htracked i).tolerance, hpoint i] at hunmet
    have hsize : ((follow (r.engine.steps list r.engine.factor))^[i] r.system.values).size = r.system.slots.size :=
      (congrArg Array.size (hpoint i).symm).trans ((htracked i).size.trans r.system.size_values)
    rw [Function.iterate_succ_apply']
    exact sq_tolerance_le r.engine list htol (hbound _ hsize).2 hunmet
  have hfew : j < N₀ := by
    have hfinal := mul_nonneg hK
      (Point.gap_nonneg z ((follow (r.engine.steps list r.engine.factor))^[j] r.system.values))
    have hle : (j : Rat) * r.scope.tolerance ^ 2 ≤ K * z.gap r.system.values := by linarith
    have hj : (j : Rat) ≤ K * z.gap r.system.values / r.scope.tolerance ^ 2 :=
      (le_div_iff₀ (pow_pos htol 2)).mpr hle
    exact_mod_cast lt_of_le_of_lt hj hN₀
  refine ⟨?_, hsweeps.trans_le hfew.le⟩
  -- the budget is not used up, and nothing but the tolerance stops a run early
  rcases hj.reason with hend | hend | ⟨i, -, hend⟩
  · omega
  · rw [hstatus, classify, if_pos (not_le.mp hend)]
  · cases hend

/-- A hard equality and a soft inequality with the common solution `(1, 3)`, and a factor above one. -/
theorem relax_converges_on_pair :
    let sum : Constraint Rat := .build [⟨1, ⟨0, 0⟩⟩, ⟨1, ⟨0, 1⟩⟩] .eq (.fixed 4)
    let bound : Constraint Rat := { Constraint.build [⟨2, ⟨0, 0⟩⟩] .ge (.fixed 2) with penalty := 0.5 }
    let s : System Rat := { System.empty 0 with
      slots := #[⟨-7, none, [⟨0⟩, ⟨1⟩]⟩, ⟨5, none, [⟨0⟩]⟩]
      attached := [⟨0, 0⟩, ⟨0, 1⟩]
      constraints := #[some sum, some bound]
      order := [⟨0⟩, ⟨1⟩] }
    let r : Run Rat (Kaczmarz Rat) := ⟨⟨10, 1.5, 1, [⟨0⟩, ⟨1⟩]⟩, s, { tolerance := s.tolerance }⟩
    ∃ N₀, ∀ N ≥ N₀, (Relaxation.relax r N).2.status = .optimal ∧ (Relaxation.relax r N).2.sweeps ≤ N₀ := by
  intro sum bound s r
  have hsum : sum.Fits s := ⟨by decide, by decide, by decide +kernel⟩
  have hbound : bound.Fits s := ⟨by decide, by decide, by decide +kernel⟩
  have hfits : ∀ x ∈ s.live [⟨0⟩, ⟨1⟩], x.2.Fits s :=
    List.forall_mem_cons.mpr ⟨hsum, List.forall_mem_singleton.mpr hbound⟩
  exact relax_converges r Scalar.Ordered.small_pos (by decide +kernel) (by decide +kernel) rfl hfits
    (by decide +kernel) #[1, 3] (by decide +kernel)

end Kaczmarz

end SoftLinear
