import Mathlib.Algebra.BigOperators.Ring.List
import SoftLinear.Proofs.Approach
import SoftLinear.Proofs.Corrections
import SoftLinear.Proofs.Passes

/-!
# The last word of the hard constraints

A sweep of Kaczmarz and a round of forces both end with a pass of projections over the hard constraints: soft projections
and forces come before it, whatever they do.  In exact arithmetic a full projection lands where its constraint holds, and
moves only along the weights of that constraint.  So if the coefficient vectors of the hard constraints are orthogonal
(`Orthogonal`), no projection of the pass touches the left side of another hard constraint, and after the pass all of them
hold exactly (`Orthogonal.error_pass`): each is decided by its own projection.

From there on only the shape of a run matters: it stops because its residuals are below the tolerance, or it has made a
sweep, and then the hard residual is zero (`Course.Sound.holds_state`).
-/

namespace SoftLinear

open Progress

/-! ## One projection -/

namespace Constraint

variable {c d : Constraint Rat} {p : Point Rat}

theorem error_project_self (hc : c.Spans p.size) (hn : nearZero ≤ c.normSquared) : c.error (c.project p 1).point = 0 :=
  (corrects_project hc hn 1).error_eq_zero

theorem error_project_of_orthogonal (hd : d.Spans p.size) (h : d.dot c = 0) (f : Rat) :
    c.error (d.project p f).point = c.error p := by
  cases hm : (d.project p f).moved with
  | false => rw [point_project_of_not_moved hm]
  | true =>
    rcases project_cases p f (le_normSquared_of_moved hm) with ⟨-, hp⟩ | hp
    · rw [hp]
    · rw [hp, error, lhs_shift c hd.inside, h, mul_zero, add_zero]
      rfl

theorem dot_comm (c d : Constraint Rat) : c.dot d = d.dot c := by
  unfold dot weightAt
  -- both are the sum over the pairs of terms at one place
  induction c.terms with
  | nil => simp
  | cons t ts ih =>
    rw [List.map_cons, List.sum_cons, ih, ← List.sum_map_mul_left, ← List.sum_map_add]
    refine congrArg List.sum (List.map_congr_left fun u _ => ?_)
    rw [List.map_cons, List.sum_cons, mul_add]
    by_cases hplace : u.var.index = t.var.index
    · rw [if_pos hplace, if_pos hplace.symm, mul_comm]
    · rw [if_neg hplace, if_neg (Ne.symm hplace), mul_zero, mul_zero]

end Constraint

/-! ## A pass -/

/-- Constraints on points of a size whose weights do not vanish and whose coefficient vectors are orthogonal.  That the
variables of each are different ones is no more than the edits of a system see to (`System.WellFormed.fits`). -/
structure Orthogonal (n : Nat) (cs : List (Constraint Rat)) : Prop where
  spans : ∀ c ∈ cs, c.Spans n
  norm : ∀ c ∈ cs, nearZero ≤ c.normSquared
  pairwise : cs.Pairwise fun c d => c.dot d = 0

section Pass

variable {n : Nat} {c : Constraint Rat} {cs : List (Constraint Rat)} {p : Point Rat}

theorem error_follow_of_orthogonal (hspans : ∀ d ∈ cs, d.Spans n) (h : ∀ d ∈ cs, d.dot c = 0) (hp : p.size = n) :
    c.error (follow (cs.map (·, 1)) p) = c.error p := by
  induction cs generalizing p with
  | nil => rfl
  | cons d cs ih =>
    obtain ⟨hd, hcs⟩ := List.forall_mem_cons.mp hspans
    obtain ⟨hdot, hdots⟩ := List.forall_mem_cons.mp h
    have hrest := ih hcs hdots ((Constraint.size_project d p 1).trans hp)
    exact hrest.trans (Constraint.error_project_of_orthogonal (hp ▸ hd) hdot 1)

/-- **A pass over orthogonal constraints ends where all of them hold**: each does after its own projection, and none of
those that follow changes that. -/
theorem Orthogonal.error_pass (h : Orthogonal n cs) (hp : p.size = n) :
    ∀ c ∈ cs, c.error (follow (cs.map (·, 1)) p) = 0 := by
  obtain ⟨hspans, hnorm, hpairwise⟩ := h
  induction cs generalizing p with
  | nil => simp
  | cons c cs ih =>
    obtain ⟨hc, hcs⟩ := List.forall_mem_cons.mp hspans
    obtain ⟨hcn, hcsn⟩ := List.forall_mem_cons.mp hnorm
    obtain ⟨hdots, hrest⟩ := List.pairwise_cons.mp hpairwise
    have hsize : (c.project p 1).point.size = n := (Constraint.size_project c p 1).trans hp
    refine List.forall_mem_cons.mpr ⟨?_, ih hsize hcs hcsn hrest⟩
    have hkept := error_follow_of_orthogonal (c := c) hcs (fun d hd => (d.dot_comm c).trans (hdots d hd)) hsize
    exact hkept.trans (Constraint.error_project_self (hp ▸ hc) hcn)

end Pass

/-! ## Sweeps and rounds -/

/-- At factor one a sweep of Kaczmarz ends with a pass over the hard constraints: the extra one, or the sweep itself where
no soft constraint takes part. -/
theorem Kaczmarz.exists_pass (k : Kaczmarz Rat) (hfactor : k.factor = 1) (list : List (ConstraintId × Constraint Rat))
    (p : Progress Rat) : ∃ q : Point Rat, q.size = p.point.size ∧
      (k.moves list p).point = follow (((list.map (·.2)).filter (·.isHard)).map (·, 1)) q := by
  rw [(k.moves_follow list p).2]
  unfold steps
  rw [hfactor]
  split
  · exact ⟨_, size_follow _ _, follow_append _ _ _⟩
  · rename_i hsoft
    have hhard : ∀ x ∈ list, x.2.isHard = true := by simpa using hsoft
    have hall : (list.map (·.2)).filter (·.isHard) = list.map (·.2) :=
      List.filter_eq_self.mpr (List.forall_mem_map.mpr hhard)
    refine ⟨p.point, rfl, ?_⟩
    rw [List.append_nil, hall, List.map_map]
    refine congrArg (follow · p.point) (List.map_congr_left fun x hx => ?_)
    rw [if_pos (hhard x hx)]
    rfl

namespace ForceDirected

theorem point_foldl_enforce (hard : List (Constraint Rat)) (acc : Progress Rat × Bool) :
    (hard.foldl enforce acc).1.point = follow (hard.map (·, 1)) acc.1.point := by
  induction hard generalizing acc with
  | nil => rfl
  | cons c hard ih => exact ih (enforce acc c)

/-- However many passes over the hard constraints are allowed, if it is one at least, one of them is the last. -/
theorem exists_pass (hard : List (Constraint Rat)) {n : Nat} (hn : 0 < n) (p : Progress Rat) :
    ∃ q : Point Rat, q.size = p.point.size ∧ (enforceHard hard n p).point = follow (hard.map (·, 1)) q := by
  induction n generalizing p with
  | zero => exact absurd hn (lt_irrefl 0)
  | succ n ih =>
    have hpoint := point_foldl_enforce hard (p, false)
    unfold enforceHard
    simp only
    split
    · rcases Nat.eq_zero_or_pos n with rfl | hn
      · exact ⟨p.point, rfl, hpoint⟩
      · obtain ⟨q, hq, hlast⟩ := ih hn { (hard.foldl enforce (p, false)).1 with
          scope := (hard.foldl enforce (p, false)).1.scope.tally Stats.recordSweep }
        exact ⟨q, hq.trans (foldl_enforce_moved hard (p, false)).size, hlast⟩
    · exact ⟨p.point, rfl, hpoint⟩

end ForceDirected

/-! ## Runs -/

namespace Course

variable {α : Type} [Scalar α] {c : Course α} {P : Point α → Prop}

theorem Sound.holds_state (h : c.Sound) (hmove : ∀ p, p.point.size = c.base.point.size → P (c.move p).point) {n : Nat}
    (hn : 0 < (c.state n).sweeps) : P (c.state n).point := by
  obtain ⟨k, -, he⟩ := iterate_halts (c.sweep n) c.settled n c.base
  rw [state, he] at hn ⊢
  rw [(h.isSweep n).sweeps_iterate, h.fresh, Nat.zero_add] at hn
  obtain ⟨j, rfl⟩ := Nat.exists_eq_add_of_lt hn
  rw [Nat.zero_add, Function.iterate_succ_apply']
  exact hmove _ ((h.isSweep n).tracked_iterate h.tracked j).size

/-- The run that is cut off after some of the sweeps that a longer run makes has made them all. -/
theorem Sound.sweeps_state (h : c.Sound) {n j : Nat} (hj : j ≤ (c.state n).sweeps) : (c.state j).sweeps = j := by
  obtain ⟨k, hk, he⟩ := iterate_halts (c.sweep n) c.settled n c.base
  have hcount : ∀ i, ((c.sweep n)^[i] c.base).sweeps = i := by
    intro i
    rw [(h.isSweep n).sweeps_iterate, h.fresh, Nat.zero_add]
  rw [state, he, hcount] at hj
  have hsame : (c.state j).sweeps = ((c.sweep n)^[j] c.base).sweeps := (congrArg sweeps (h.state_unmarked hk hj) :)
  rw [hsame, hcount]

/-- A run that makes no sweep although its budget allows one has met nothing at the tolerance or above. -/
theorem Sound.met_of_idle {n : Nat} (h : c.Sound) (hn : 0 < n) (hidle : (c.state n).sweeps = 0) :
    ¬ (c.state n).scope.tolerance ≤ (c.state n).summary.max := by
  obtain ⟨k, hk, he⟩ := iterate_halts (c.sweep n) c.settled n c.base
  rw [state, he] at hidle ⊢
  rw [(h.isSweep n).sweeps_iterate, h.fresh, Nat.zero_add] at hidle
  rcases hk.reason with hend | hend | ⟨j, hend, -⟩
  · omega
  · exact hend
  · omega

theorem Sound.sweeps_le_one {n : Nat} (h : c.Sound)
    (hmet : ∀ p, p.point.size = c.base.point.size →
      ¬ c.base.scope.tolerance ≤ (Summary.measure c.constraints (c.move p).point).max) : (c.state n).sweeps ≤ 1 := by
  obtain ⟨k, hk, he⟩ := iterate_halts (c.sweep n) c.settled n c.base
  rw [state, he, (h.isSweep n).sweeps_iterate, h.fresh, Nat.zero_add]
  by_contra hmany
  have hunmet := hk.unmet 1 (by omega)
  have htracked := (h.isSweep n).tracked_iterate h.tracked 1
  rw [htracked.summary, htracked.tolerance] at hunmet
  exact hmet c.base rfl hunmet

end Course

theorem worst_eq_zero {cs : List (Constraint Rat)} {p : Point Rat} (h : ∀ c ∈ cs, c.error p = 0) :
    System.worst cs p = 0 := by
  unfold System.worst
  induction cs with
  | nil => rfl
  | cons c cs ih =>
    obtain ⟨hc, hcs⟩ := List.forall_mem_cons.mp h
    rw [List.foldl_cons, hc, rat_abs, abs_zero, rat_larger, max_self]
    exact ih hcs

/-! ## Relaxations that enforce -/

variable {γ : Type}

/-- A relaxation whose sweeps end with full projections onto the hard constraints. -/
def Engine.Enforces : Engine Rat γ → Prop
  | kaczmarz k => k.factor = 1
  | gaussSeidel _ => False
  | forceDirected f => 0 < f.hardSweeps

/-- The settings of such a relaxation: Kaczmarz at factor one, given or not, and springs with any numbers. -/
def RelaxationSettings.Enforces : RelaxationSettings Rat → Prop
  | kaczmarz _ factor _ => factor.getD 1 = 1
  | gaussSeidel _ _ => False
  | forceDirected _ _ _ => True

theorem RelaxationSettings.Enforces.engine {settings : RelaxationSettings Rat} (h : settings.Enforces)
    (selector : Selector γ) : (settings.engine selector).Enforces := by
  cases settings with
  | kaczmarz budget factor cooling => exact h
  | gaussSeidel budget factor => exact h
  | forceDirected budget cooling hardSweeps => exact Nat.lt_of_lt_of_le Nat.one_pos (Nat.le_max_left _ _)

namespace Engine

theorem relax_outcome [Generator γ] (r : Run Rat (Engine Rat γ)) (n : Nat) :
    (Relaxation.relax r n).2.sweeps = ((course r).state n).sweeps ∧
      (Relaxation.relax r n).2.hardError = ((course r).state n).summary.hard := by
  obtain ⟨e, s, scope⟩ := r
  cases e <;> exact ⟨rfl, rfl⟩

theorem Enforces.prepare [Generator γ] {r : Run Rat (Engine Rat γ)} (hengine : r.engine.Enforces)
    (ids : List ConstraintId) : (Relaxation.prepare r ids).engine.Enforces ∧
      (Relaxation.prepare r ids).system = r.system ∧ (Relaxation.prepare r ids).scope = r.scope := by
  obtain ⟨e, s, scope⟩ := r
  cases e with
  | kaczmarz k => exact ⟨hengine, rfl, rfl⟩
  | gaussSeidel g => exact hengine.elim
  | forceDirected f => exact ⟨hengine, rfl, rfl⟩

section Enforcing

variable {r : Run Rat (Engine Rat γ)} (hengine : r.engine.Enforces)
  (horthogonal : Orthogonal r.system.slots.size ((active r).filter (·.isHard))) {n : Nat}
include hengine horthogonal

/-- **After every sweep the hard constraints hold exactly**, wherever the sweep began. -/
theorem error_move (p : Progress Rat) (hp : p.point.size = (course r).base.point.size) :
    ∀ c ∈ (active r).filter (·.isHard), c.error ((course r).move p).point = 0 := by
  have hsize : p.point.size = r.system.slots.size := by rw [hp, (course_base r).1, System.size_values]
  obtain ⟨q, hq, hpass⟩ : ∃ q : Point Rat, q.size = p.point.size ∧
      ((course r).move p).point = follow (((active r).filter (·.isHard)).map (·, 1)) q := by
    obtain ⟨e, s, scope⟩ := r
    cases e with
    | kaczmarz k => exact k.exists_pass hengine _ p
    | gaussSeidel g => exact hengine.elim
    | forceDirected f =>
      obtain ⟨q, hq, hpass⟩ := ForceDirected.exists_pass ((active ⟨.forceDirected f, s, scope⟩).filter (·.isHard))
        hengine _
      exact ⟨q, hq.trans (foldl_moved ForceDirected.pullVariable_moved _ p).size, hpass⟩
  rw [hpass]
  exact horthogonal.error_pass (hq.trans hsize)

/-- A run that has made a sweep ends where the hard constraints hold exactly. -/
theorem error_state (hn : 0 < ((course r).state n).sweeps) :
    ∀ c ∈ (active r).filter (·.isHard), c.error ((course r).state n).point = 0 :=
  (course_sound r).holds_state (P := fun p => ∀ c ∈ (active r).filter (·.isHard), c.error p = 0)
    (error_move hengine horthogonal) hn

theorem hard_state (hn : 0 < ((course r).state n).sweeps) : ((course r).state n).summary.hard = 0 := by
  rw [((course_sound r).tracked_state n).summary, course_constraints, Summary.measure_hard]
  exact worst_eq_zero (error_state hengine horthogonal hn)

theorem reports_exact [Generator γ] (n : Nat) :
    sweepReports (Relaxation.relax r n).1.scope.log =
      sweepReports r.scope.log ++ (List.range (Relaxation.relax r n).2.sweeps).map fun j => (j + 1, 0) := by
  obtain ⟨-, -, e, he, hscope⟩ := relax_run r n
  obtain ⟨k, -, hk, hreports, -⟩ := (course_sound r).state_spec n
  rw [hscope, (relax_outcome r n).1, hk]
  simp only [Scope.report]
  rw [sweepReports_push, he, hreports, (course_base r).2.2, Option.toList_none, List.append_nil]
  refine congrArg (sweepReports r.scope.log ++ ·) (List.map_congr_left fun j hj => ?_)
  have hswept : ((course r).state (j + 1)).sweeps = j + 1 :=
    (course_sound r).sweeps_state (hk ▸ List.mem_range.mp hj)
  rw [hard_state hengine horthogonal (by rw [hswept]; exact Nat.succ_pos j)]

/-- Such a run is not judged infeasible: it has met no residual at the tolerance or above, or the hard residual is zero. -/
theorem classify_state (htol : 0 < r.scope.tolerance) (hn : 0 < n) : ((course r).state n).classify ≠ .infeasible := by
  rcases Nat.eq_zero_or_pos ((course r).state n).sweeps with hidle | hswept
  · rw [classify_eq_optimal.mpr (not_le.mp ((course_sound r).met_of_idle hn hidle))]
    decide
  · unfold classify
    rw [hard_state hengine horthogonal hswept, tolerance_state, if_pos htol]
    split <;> decide

/-- Without soft constraints one sweep is enough. -/
theorem classify_state_of_hard (htol : 0 < r.scope.tolerance) (hhard : ∀ c ∈ active r, c.isHard = true) (hn : 0 < n) :
    ((course r).state n).classify = .optimal ∧ ((course r).state n).sweeps ≤ 1 := by
  have hall : (active r).filter (·.isHard) = active r := List.filter_eq_self.mpr hhard
  have hmove : ∀ p, p.point.size = (course r).base.point.size →
      (Summary.measure (course r).constraints ((course r).move p).point).max = 0 := by
    intro p hp
    rw [course_constraints, Summary.measure_max]
    exact worst_eq_zero (hall ▸ error_move hengine horthogonal p hp)
  refine ⟨?_, (course_sound r).sweeps_le_one fun p hp => ?_⟩
  · rw [classify_eq_optimal]
    rcases Nat.eq_zero_or_pos ((course r).state n).sweeps with hidle | hswept
    · exact not_le.mp ((course_sound r).met_of_idle hn hidle)
    · rw [((course_sound r).tracked_state n).summary, course_constraints, Summary.measure_max,
        worst_eq_zero (hall ▸ error_state hengine horthogonal hswept), tolerance_state]
      exact htol
  · rw [hmove p hp, (course_base r).2.1]
    exact not_le.mpr htol

end Enforcing

variable [Generator γ]

/-- **The hard constraints have the last word.**  In exact arithmetic, let Kaczmarz at factor one, with any cooling, or
springs with any settings be prepared for a list of constraints whose hard members have weights that do not vanish and
orthogonal coefficient vectors; soft constraints may be any.  From whatever values the run starts, the hard residual is
exactly zero after every sweep, in the reports and at the end.  So with a positive tolerance a run that may make a sweep
is not judged infeasible, and without soft constraints it is optimal after one sweep at most. -/
theorem relax_enforces (settings : RelaxationSettings Rat) (selector : Selector γ) (s : System Rat) (scope : Scope Rat)
    (ids : List ConstraintId) (budget : Nat) (hsettings : settings.Enforces)
    (horthogonal : Orthogonal s.slots.size (((s.live ids).map (·.2)).filter (·.isHard))) :
    let r : Run Rat (Engine Rat γ) := Relaxation.prepare ⟨settings.engine selector, s, scope⟩ ids
    let out := Relaxation.relax r budget
    sweepReports out.1.scope.log =
      sweepReports scope.log ++ (List.range out.2.sweeps).map (fun j => (j + 1, 0)) ∧
    (0 < out.2.sweeps → out.2.hardError = 0 ∧
      ∀ x ∈ s.live ids, x.2.isHard = true → x.2.error out.1.system.values = 0) ∧
    (0 < scope.tolerance → 0 < budget → out.2.status ≠ .infeasible ∧
      ((∀ x ∈ s.live ids, x.2.isHard = true) → out.2.status = .optimal ∧ out.2.sweeps ≤ 1)) := by
  intro r out
  have hstart : ((settings.engine selector : Engine Rat γ)).Enforces := hsettings.engine selector
  obtain ⟨hengine, hsystem, hscope⟩ := Enforces.prepare (r := ⟨settings.engine selector, s, scope⟩) hstart ids
  have hactive : active r = (s.live ids).map (·.2) := by
    rw [active, (prepare_engine _ ids).2, hsystem]
  rw [← hactive, show s.slots.size = r.system.slots.size by rw [hsystem]] at horthogonal
  obtain ⟨hsweeps, hhard⟩ := relax_outcome r budget
  refine ⟨?_, fun hswept => ?_, fun htol hbudget => ?_⟩
  · rw [← show r.scope = scope from hscope]
    exact reports_exact hengine horthogonal budget
  · rw [hsweeps] at hswept
    refine ⟨hhard.trans (hard_state hengine horthogonal hswept), fun x hx hxhard => ?_⟩
    rw [relax_values]
    refine error_state hengine horthogonal hswept x.2 (List.mem_filter.mpr ⟨?_, hxhard⟩)
    rw [hactive]
    exact List.mem_map_of_mem hx
  · obtain ⟨-, hstatus, -⟩ := relax_run r budget
    rw [← show r.scope.tolerance = scope.tolerance by rw [hscope]] at htol
    rw [hstatus, hsweeps]
    refine ⟨classify_state hengine horthogonal htol hbudget, fun hall => ?_⟩
    have hallhard : ∀ c ∈ active r, c.isHard = true := by
      rw [hactive]
      exact List.forall_mem_map.mpr hall
    exact classify_state_of_hard hengine horthogonal htol hallhard hbudget

/-- A hard equality and a hard inequality with orthogonal coefficients, and a soft equality that contradicts both: the run
uses up its budget, and the hard ones hold exactly after each of its sweeps. -/
theorem relax_enforces_of_contradiction :
    let sum : Constraint Rat := .build [⟨1, ⟨0, 0⟩⟩, ⟨1, ⟨0, 1⟩⟩] .eq (.fixed 4)
    let difference : Constraint Rat := .build [⟨2, ⟨0, 0⟩⟩, ⟨-2, ⟨0, 1⟩⟩] .le (.fixed 4)
    let wish : Constraint Rat := { Constraint.build [⟨1, ⟨0, 0⟩⟩] .eq (.fixed 10) with penalty := 0.5 }
    let s : System Rat := { System.empty 0 with
      slots := #[⟨-7, none, [⟨0⟩, ⟨1⟩, ⟨2⟩]⟩, ⟨5, none, [⟨0⟩, ⟨1⟩]⟩]
      attached := [⟨0, 0⟩, ⟨0, 1⟩]
      constraints := #[some sum, some difference, some wish]
      order := [⟨0⟩, ⟨1⟩, ⟨2⟩] }
    let r : Run Rat (Engine Rat KeyStream) := Relaxation.prepare
      ⟨(RelaxationSettings.kaczmarz none none (some 0.9)).engine .deterministic, s, { tolerance := s.tolerance }⟩
      [⟨2⟩, ⟨0⟩, ⟨1⟩]
    let out := Relaxation.relax r 3
    out.2.status ≠ .infeasible ∧ out.2.sweeps = 3 ∧ sweepReports out.1.scope.log = [(1, 0), (2, 0), (3, 0)] := by
  intro sum difference wish s r out
  have hsum : sum.Spans 2 := ⟨by decide, by decide⟩
  have hdifference : difference.Spans 2 := ⟨by decide, by decide⟩
  have hwish : wish.Spans 2 := ⟨by decide, by decide⟩
  have hspans : ∀ x ∈ s.live [⟨2⟩, ⟨0⟩, ⟨1⟩], x.2.Spans s.slots.size :=
    List.forall_mem_cons.mpr ⟨hwish, List.forall_mem_cons.mpr ⟨hsum, List.forall_mem_singleton.mpr hdifference⟩⟩
  have horthogonal : Orthogonal s.slots.size (((s.live [⟨2⟩, ⟨0⟩, ⟨1⟩]).map (·.2)).filter (·.isHard)) :=
    ⟨fun c hc => List.forall_mem_map.mpr hspans c (List.mem_of_mem_filter hc), by decide +kernel, by decide +kernel⟩
  obtain ⟨hreports, -, hstatus⟩ := relax_enforces (.kaczmarz none none (some 0.9)) (.deterministic : Selector KeyStream) s
    { tolerance := s.tolerance } [⟨2⟩, ⟨0⟩, ⟨1⟩] 3 rfl horthogonal
  have hsweeps : out.2.sweeps = 3 := by decide +kernel
  refine ⟨(hstatus Scalar.Ordered.small_pos (by decide)).1, hsweeps, hreports.trans ?_⟩
  rw [show (Relaxation.relax r 3).2.sweeps = 3 from hsweeps]
  rfl

end Engine

end SoftLinear
