import SoftLinear.Proofs.Enforcement
import SoftLinear.Proofs.ScalarLaws
import SoftLinear.Random

/-!
# Contradictory equalities

Hard equalities with one left side cannot all hold if their right sides differ.  Kaczmarz at factor one goes from one of
these parallel planes to the next and ends every sweep on the last one (`Kaczmarz.error_last_move`).  From there each of
the others is violated by the distance of its right side from the last one, so the hard residual is the same after every
sweep (`spread`) and never counts as shrinking, whichever sweep is the checkpoint.

Before the first sweep nothing is known of the point.  But two right sides at a distance of twice the tolerance keep the
largest residual from falling below the tolerance anywhere (`Parallel.not_worst_lt`), so no run stops early and one
without a budget is infeasible as well.
-/

namespace SoftLinear

open Progress

/-- The largest distance of a right side from a number. -/
def spread (b : Rat) (cs : List (Constraint Rat)) : Rat := cs.foldl (fun acc c => max acc |c.rhs - b|) 0

/-- Hard equalities whose left sides are that of the last of them. -/
structure Parallel (front : List (Constraint Rat)) (last : Constraint Rat) : Prop where
  terms : ∀ c ∈ front ++ [last], c.terms = last.terms
  relation : ∀ c ∈ front ++ [last], c.relation = .eq
  hard : ∀ c ∈ front ++ [last], c.isHard = true

namespace Parallel

variable {front : List (Constraint Rat)} {last c : Constraint Rat} {p : Point Rat} {tol : Rat}

theorem error_sub (h : Parallel front last) (hc : c ∈ front ++ [last]) (p : Point Rat) :
    c.error p - last.error p = c.rhs - last.rhs := by
  have hlhs : c.lhs p = last.lhs p := by
    unfold Constraint.lhs
    rw [h.terms c hc]
  unfold Constraint.error Constraint.errorAt
  rw [h.relation c hc, h.relation last (by simp), hlhs]
  ring

/-- Where the last of the equalities holds, the largest residual is the spread of the right sides. -/
theorem worst_eq_spread (h : Parallel front last) (hp : last.error p = 0) :
    System.worst (front ++ [last]) p = spread last.rhs (front ++ [last]) := by
  unfold System.worst spread
  refine List.foldl_ext _ _ _ fun acc c hc => ?_
  rw [← h.error_sub hc p, hp, sub_zero, rat_larger, rat_abs]

/-- If a right side is far from the last one, no point comes close to both equalities. -/
theorem not_worst_lt (h : Parallel front last) (hfar : ∃ c ∈ front, 2 * tol ≤ |c.rhs - last.rhs|) (p : Point Rat) :
    ¬ System.worst (front ++ [last]) p < tol := by
  intro hlt
  obtain ⟨c, hc, hfar⟩ := hfar
  have hmem : c ∈ front ++ [last] := List.mem_append_left _ hc
  obtain ⟨-, hclose⟩ := Scalar.lt_of_foldl_larger_lt (rat_isNaN 0) hlt
  have hfirst := hclose c hmem (rat_isNaN _)
  have hlast := hclose last (by simp) (rat_isNaN _)
  rw [rat_abs] at hfirst hlast
  rw [← h.error_sub hmem p] at hfar
  linarith [abs_sub (c.error p) (last.error p)]

end Parallel

/-- A largest residual is never below a share of itself that is less than the whole. -/
theorem not_worst_lt_share (cs : List (Constraint Rat)) (p : Point Rat) :
    ¬ System.worst cs p < System.worst cs p * convergingShare := by
  intro hlt
  obtain ⟨hpos, -⟩ := Scalar.lt_of_foldl_larger_lt (rat_isNaN 0) hlt
  have hhalf : (convergingShare : Rat) = 1 / 2 := by
    show (0.5 : Rat) = 1 / 2
    norm_num
  rw [hhalf] at hlt hpos
  linarith

section Runs

open Engine

variable {γ : Type} {r : Run Rat (Engine Rat γ)} {k : Kaczmarz Rat} {front : List (Constraint Rat)}
  {last : Constraint Rat} (hk : r.engine = .kaczmarz k) (hfactor : k.factor = 1) (hactive : active r = front ++ [last])
  (hparallel : Parallel front last) (hspans : last.Spans r.system.slots.size) (hnorm : nearZero ≤ last.normSquared)
  (hfar : ∃ c ∈ front, 2 * r.scope.tolerance ≤ |c.rhs - last.rhs|)

include hactive hparallel in
theorem Parallel.measure_eq (p : Point Rat) : (Summary.measure (active r) p).max = System.worst (front ++ [last]) p ∧
    (Summary.measure (active r) p).hard = System.worst (front ++ [last]) p := by
  rw [Summary.measure_max, Summary.measure_hard, hactive, List.filter_eq_self.mpr hparallel.hard]
  exact ⟨rfl, rfl⟩

include hk hfactor hactive hparallel hspans hnorm

theorem Kaczmarz.error_last_move {p : Progress Rat} (hp : p.point.size = (course r).base.point.size) :
    last.error ((course r).move p).point = 0 := by
  obtain ⟨e, s, scope⟩ := r
  subst hk
  obtain ⟨q, hq, hpass⟩ := k.exists_pass hfactor (s.live k.prepared) p
  have hhard : ((s.live k.prepared).map (·.2)).filter (·.isHard) = front ++ [last] := by
    refine Eq.trans ?_ (List.filter_eq_self.mpr hparallel.hard)
    rw [← hactive]
    rfl
  have hmove : (k.moves (s.live k.prepared) p).point = (last.project (follow (front.map (·, 1)) q) 1).point := by
    rw [hpass, hhard, List.map_append, follow_append]
    rfl
  show last.error (k.moves (s.live k.prepared) p).point = 0
  rw [hmove]
  refine Constraint.error_project_self ?_ hnorm
  rw [size_follow, hq, hp, (course_base _).1, System.size_values]
  exact hspans

include hfar

/-- A run that may make a sweep makes one, and ends where the last of the constraints holds. -/
theorem Kaczmarz.error_last_state {n : Nat} (hn : 0 < n) : last.error ((course r).state n).point = 0 := by
  have hswept : 0 < ((course r).state n).sweeps := by
    refine Nat.pos_of_ne_zero fun hidle => ?_
    have hmet := (course_sound r).met_of_idle hn hidle
    rw [tolerance_state, ((course_sound r).tracked_state n).summary, course_constraints,
      (hparallel.measure_eq hactive _).1] at hmet
    exact hparallel.not_worst_lt hfar _ (not_le.mp hmet)
  exact (course_sound r).holds_state (P := fun p => last.error p = 0)
    (fun p hp => error_last_move hk hfactor hactive hparallel hspans hnorm hp) hswept

variable [Generator γ]

theorem Kaczmarz.hard_summaryAfter {n : Nat} (hn : 0 < n) :
    (summaryAfter r n).hard = spread last.rhs (front ++ [last]) := by
  have hlast := error_last_state hk hfactor hactive hparallel hspans hnorm hfar hn
  rw [summaryAfter, relax_values, (hparallel.measure_eq hactive _).2, hparallel.worst_eq_spread hlast]

/-- A run is infeasible: its residuals are not below the tolerance, and those at the checkpoint are those at the end. -/
theorem Kaczmarz.relax_parallel (budget : Nat) : (Relaxation.relax r budget).2.status = .infeasible ∧
    sweepReports (Relaxation.relax r budget).1.scope.log =
      sweepReports r.scope.log ++ (List.range budget).map fun j => (j + 1, spread last.rhs (front ++ [last])) := by
  obtain ⟨n, -, hreports, hstatus, hstop⟩ := relax_spec r budget
  have hspread := fun j hj => hard_summaryAfter hk hfactor hactive hparallel hspans hnorm hfar (n := j) hj
  obtain ⟨hmax, hhard⟩ := hparallel.measure_eq hactive (Relaxation.relax r budget).1.system.values
  have hunmet : ¬ (summaryAfter r budget).max < r.scope.tolerance := by
    rw [summaryAfter, hmax]
    exact hparallel.not_worst_lt hfar _
  obtain rfl : n = budget := by
    rcases hstop with hstop | hstop | ⟨hsettles, -⟩
    · exact hstop
    · exact absurd (not_le.mp hstop) hunmet
    · rw [hk] at hsettles
      cases hsettles
  refine ⟨?_, ?_⟩
  · rw [hstatus, Status.verdict_eq_infeasible]
    refine ⟨hunmet, ?_, ?_⟩
    · rwa [summaryAfter, hhard, ← hmax]
    · rintro ⟨hmid, hshrinking⟩
      -- the checkpoint comes after a sweep, so the run has made one as well
      rw [hspread (max 1 (n / 2)) (by omega), ← hspread n (by omega), summaryAfter, hhard] at hshrinking
      exact not_worst_lt_share _ _ hshrinking
  · rw [hreports]
    refine congrArg (sweepReports r.scope.log ++ ·) (List.map_congr_left fun j _ => ?_)
    rw [hspread (j + 1) (Nat.succ_pos j)]

end Runs

namespace Kaczmarz

/-- **Contradictory hard equalities are infeasible.**  In exact arithmetic, prepare Kaczmarz at factor one, with any
cooling, for a list of constraints whose enabled members are hard equalities with one left side, whose weights do not
vanish, and let some right side be at least twice the tolerance away from the last one.  Then every run is judged
infeasible, whatever the budget and the values it starts from; it uses up its budget, and after each of its sweeps the
hard residual is the largest distance of a right side from the last one.  That the last constraint fits is no more
than the edits of a system see to (`System.WellFormed.fits`). -/
theorem relax_of_contradiction (k : Kaczmarz Rat) (hfactor : k.factor = 1) (s : System Rat) (scope : Scope Rat)
    (ids : List ConstraintId) (budget : Nat) (front : List (Constraint Rat)) (last : Constraint Rat)
    (hlive : (s.live ids).map (·.2) = front ++ [last]) (hparallel : Parallel front last) (hfits : last.Fits s)
    (hnorm : last.isDegenerate = false) (hfar : ∃ c ∈ front, 2 * scope.tolerance ≤ |c.rhs - last.rhs|) :
    let r : Run Rat (Kaczmarz Rat) := Relaxation.prepare ⟨k, s, scope⟩ ids
    let out := Relaxation.relax r budget
    out.2.status = .infeasible ∧
    sweepReports out.1.scope.log =
      sweepReports scope.log ++ (List.range budget).map fun j => (j + 1, spread last.rhs (front ++ [last])) :=
  relax_parallel (γ := KeyStream) (r := ⟨.kaczmarz { k with prepared := ids }, s, scope⟩) rfl hfactor hlive hparallel
    hfits.spans (not_lt.mp (of_decide_eq_false hnorm)) hfar budget

/-- Three equalities over a sum in which one variable is named twice, far from where the run starts.  Under a budget of
three the checkpoint is the first sweep. -/
theorem relax_of_contradiction_of_three :
    let sum (b : Rat) : Constraint Rat := .build [⟨1, ⟨0, 0⟩⟩, ⟨1, ⟨0, 1⟩⟩, ⟨1, ⟨0, 0⟩⟩] .eq (.fixed b)
    let s : System Rat := { System.empty 0 with
      slots := #[⟨-7, none, [⟨0⟩, ⟨1⟩, ⟨2⟩]⟩, ⟨5, none, [⟨0⟩, ⟨1⟩, ⟨2⟩]⟩]
      attached := [⟨0, 0⟩, ⟨0, 1⟩]
      constraints := #[some (sum 5), some (sum 10), some (sum 6)]
      order := [⟨0⟩, ⟨1⟩, ⟨2⟩] }
    let r : Run Rat (Kaczmarz Rat) := Relaxation.prepare ⟨.standard, s, { tolerance := s.tolerance }⟩ [⟨0⟩, ⟨1⟩, ⟨2⟩]
    (Relaxation.relax r 0).2.status = .infeasible ∧ (Relaxation.relax r 3).2.status = .infeasible ∧
      sweepReports (Relaxation.relax r 3).1.scope.log = [(1, 4), (2, 4), (3, 4)] := by
  intro sum s r
  have hterms : ∀ c ∈ [sum 5, sum 10] ++ [sum 6], c.terms = (sum 6).terms :=
    List.forall_mem_cons.mpr ⟨rfl, List.forall_mem_cons.mpr ⟨rfl, List.forall_mem_singleton.mpr rfl⟩⟩
  have hparallel : Parallel [sum 5, sum 10] (sum 6) := ⟨hterms, by decide +kernel, by decide +kernel⟩
  have hfits : (sum 6).Fits s := ⟨by decide, by decide, by decide +kernel⟩
  have hfar : ∃ c ∈ [sum 5, sum 10], 2 * s.tolerance ≤ |c.rhs - (sum 6).rhs| :=
    ⟨sum 10, by simp, by decide +kernel⟩
  have hrun := fun n => relax_of_contradiction .standard rfl s { tolerance := s.tolerance } [⟨0⟩, ⟨1⟩, ⟨2⟩] n
    [sum 5, sum 10] (sum 6) rfl hparallel hfits (by decide +kernel) hfar
  exact ⟨(hrun 0).1, (hrun 3).1, (hrun 3).2.trans (by decide +kernel)⟩

end Kaczmarz

end SoftLinear
