import Mathlib.Algebra.BigOperators.Group.Finset.Piecewise
import Mathlib.Algebra.Order.BigOperators.Group.Finset
import Mathlib.Algebra.Order.Group.MinMax
import Mathlib.Algebra.Order.Ring.Abs
import Mathlib.Tactic.FieldSimp
import Mathlib.Tactic.Linarith
import Mathlib.Tactic.Ring
import SoftLinear.Proofs.Engines
import SoftLinear.Proofs.WellFormed

/-!
# Projections in exact arithmetic

Fix a point `z` where every constraint holds.  Projecting onto a violated constraint brings a point closer to `z`, by an
amount that grows with the square of the violation (`Constraint.gap_project_le`).  It also disturbs other constraints, but
by no more than a multiple of that violation (`Constraint.lhs_project_le`).

Both follow from how a move along the weights of a constraint changes the squared distance to `z` (`gap_shift`) and the
left side of another constraint (`lhs_shift_le`).
-/

namespace SoftLinear

theorem total_eq_sum (xs : List Rat) : total xs = xs.sum := List.sum_eq_foldl.symm

/-- The squared distance between two points, over the coordinates of the second. -/
def Point.gap (z p : Point Rat) : Rat := ∑ i ∈ Finset.range p.size, (p.coord ⟨0, i⟩ - z.coord ⟨0, i⟩) ^ 2

namespace Point

variable (z p : Point Rat) (v u : Variable) (a : Rat)

theorem gap_nonneg : 0 ≤ gap z p := Finset.sum_nonneg fun _ _ => sq_nonneg _

theorem coord_move (hv : v.index < p.size) :
    (p.move v a).coord u = if u.index = v.index then p.coord v + a else p.coord u := by
  unfold move coord
  by_cases h : u.index = v.index
  · simp [h, hv, Array.getD_eq_getD_getElem?]
  · have h' : ¬ v.index = u.index := fun e => h e.symm
    simp [h, h', Array.getD_eq_getD_getElem?]

theorem abs_coord_move_le : |(p.move v a).coord u - p.coord u| ≤ |a| := by
  by_cases hv : v.index < p.size
  · rw [coord_move p v u a hv]
    split
    · rename_i h
      have hcoord : p.coord u = p.coord v := by unfold coord; rw [h]
      rw [hcoord, add_sub_cancel_left]
    · rw [sub_self, abs_zero]
      exact abs_nonneg a
  · have hmove : p.move v a = p := Array.setIfInBounds_eq_of_size_le (Nat.le_of_not_lt hv)
    rw [hmove, sub_self, abs_zero]
    exact abs_nonneg a

theorem gap_move (hv : v.index < p.size) :
    gap z (p.move v a) = gap z p + (2 * a * (p.coord v - z.coord v) + a ^ 2) := by
  have hterm : ∀ i ∈ Finset.range p.size, ((p.move v a).coord ⟨0, i⟩ - z.coord ⟨0, i⟩) ^ 2 =
      (p.coord ⟨0, i⟩ - z.coord ⟨0, i⟩) ^ 2 +
        if i = v.index then 2 * a * (p.coord v - z.coord v) + a ^ 2 else 0 := by
    intro i _
    rw [coord_move p v ⟨0, i⟩ a hv]
    by_cases h : i = v.index
    · have hp : p.coord ⟨0, i⟩ = p.coord v := by rw [h]; rfl
      have hz : z.coord ⟨0, i⟩ = z.coord v := by rw [h]; rfl
      rw [if_pos h, if_pos h, hp, hz]
      ring
    · rw [if_neg h, if_neg h, add_zero]
  unfold gap
  rw [size_move, Finset.sum_congr rfl hterm, Finset.sum_add_distrib, Finset.sum_ite_eq' ]
  rw [if_pos (Finset.mem_range.mpr hv)]

end Point

/-- Variables have places of their own in the points of a size: each has a place there, and no two have the same. -/
structure Placed (n : Nat) (vs : List Variable) : Prop where
  inside : ∀ v ∈ vs, v.index < n
  apart : ∀ v ∈ vs, ∀ u ∈ vs, v.index = u.index → v = u

theorem Placed.mono {n : Nat} {us vs : List Variable} (h : Placed n vs) (hsub : ∀ v ∈ us, v ∈ vs) : Placed n us :=
  ⟨fun v hv => h.inside v (hsub v hv), fun v hv u hu => h.apart v (hsub v hv) u (hsub u hu)⟩

theorem System.placed_of_owned {α : Type} (s : System α) {vs : List Variable} (h : ∀ v ∈ vs, s.owns v = true) :
    Placed s.slots.size vs := by
  have howned : ∀ v ∈ vs, v.owner = s.id ∧ v.index < s.slots.size := by simpa [System.owns] using h
  refine ⟨fun v hv => (howned v hv).2, ?_⟩
  rintro ⟨o, i⟩ hv ⟨o', i'⟩ hu hindex
  have howner : o = o' := (howned _ hv).1.trans (howned _ hu).1.symm
  simp_all

namespace Constraint

variable (c x : Constraint Rat) (z p : Point Rat) (a s f : Rat)

/-- The variables of a constraint are different coordinates of the points of a size. -/
structure Spans (n : Nat) (c : Constraint Rat) : Prop where
  distinct : (c.terms.map fun t => t.var.index).Nodup
  inside : ∀ t ∈ c.terms, t.var.index < n

/-- A constraint that names each variable once spans the points in which its variables have places of their own. -/
theorem spans_of_placed {n : Nat} {c : Constraint Rat} (hdistinct : (c.terms.map (·.var)).Nodup)
    (h : Placed n (c.terms.map (·.var))) : c.Spans n where
  distinct := by
    rw [show (fun t : Term Rat => t.var.index) = Variable.index ∘ (·.var) from rfl, ← List.map_map]
    exact List.Nodup.map_on h.apart hdistinct
  inside t ht := h.inside t.var (List.mem_map_of_mem ht)

theorem Fits.spans {s : System Rat} {c : Constraint Rat} (h : c.Fits s) : c.Spans s.slots.size :=
  spans_of_placed h.distinct (s.placed_of_owned (List.forall_mem_map.mpr h.owned))

/-! ## Moving along the weights -/

theorem lhs_eq_sum : c.lhs p = (c.terms.map fun t => t.coefficient * p.coord t.var).sum := total_eq_sum _

theorem normSquared_eq_sum : c.normSquared = (c.terms.map fun t => t.coefficient * t.coefficient).sum := total_eq_sum _

theorem absSum_eq_sum : c.absSum = (c.terms.map fun t => |t.coefficient|).sum := by
  unfold absSum
  rw [total_eq_sum]
  simp

theorem absSum_nonneg : 0 ≤ c.absSum := by
  rw [absSum_eq_sum]
  apply List.sum_nonneg
  intro y hy
  obtain ⟨t, -, rfl⟩ := List.mem_map.mp hy
  exact abs_nonneg _

theorem gap_shift {c : Constraint Rat} {p : Point Rat} (hc : c.Spans p.size) :
    z.gap (c.shift p s) = z.gap p + 2 * s * (c.lhs p - c.lhs z) + s ^ 2 * c.normSquared := by
  obtain ⟨hdistinct, hinside⟩ := hc
  rw [lhs_eq_sum, lhs_eq_sum, normSquared_eq_sum]
  unfold shift
  generalize c.terms = ts at *
  induction ts generalizing p with
  | nil => simp
  | cons t ts ih =>
    rw [List.map_cons, List.nodup_cons] at hdistinct
    have ht : t.var.index < p.size := hinside t List.mem_cons_self
    have hrest := ih (p := p.move t.var (s * t.coefficient)) hdistinct.2 (by
      intro u hu
      rw [Point.size_move]
      exact hinside u (List.mem_cons_of_mem _ hu))
    -- the coordinates that are still to be moved are as before
    have hcoord : ts.map (fun u => u.coefficient * (p.move t.var (s * t.coefficient)).coord u.var) =
        ts.map fun u => u.coefficient * p.coord u.var := by
      apply List.map_congr_left
      intro u hu
      have hne : ¬ u.var.index = t.var.index := fun e => hdistinct.1 (List.mem_map.mpr ⟨u, hu, e⟩)
      rw [Point.coord_move p t.var u.var _ ht, if_neg hne]
    rw [List.foldl_cons, hrest, hcoord, Point.gap_move z p t.var _ ht]
    simp only [List.map_cons, List.sum_cons]
    ring

theorem lhs_move_le (v : Variable) : |x.lhs (p.move v a) - x.lhs p| ≤ x.absSum * |a| := by
  rw [lhs_eq_sum, lhs_eq_sum, absSum_eq_sum]
  induction x.terms with
  | nil => simp
  | cons t ts ih =>
    simp only [List.map_cons, List.sum_cons]
    have ht : |t.coefficient * ((p.move v a).coord t.var - p.coord t.var)| ≤ |t.coefficient| * |a| := by
      rw [abs_mul]
      exact mul_le_mul_of_nonneg_left (Point.abs_coord_move_le p v t.var a) (abs_nonneg _)
    calc |t.coefficient * (p.move v a).coord t.var + (ts.map fun u => u.coefficient * (p.move v a).coord u.var).sum -
          (t.coefficient * p.coord t.var + (ts.map fun u => u.coefficient * p.coord u.var).sum)|
        = |t.coefficient * ((p.move v a).coord t.var - p.coord t.var) +
          ((ts.map fun u => u.coefficient * (p.move v a).coord u.var).sum -
            (ts.map fun u => u.coefficient * p.coord u.var).sum)| := by congr 1; ring
      _ ≤ |t.coefficient * ((p.move v a).coord t.var - p.coord t.var)| +
          |(ts.map fun u => u.coefficient * (p.move v a).coord u.var).sum -
            (ts.map fun u => u.coefficient * p.coord u.var).sum| := abs_add_le _ _
      _ ≤ |t.coefficient| * |a| + (ts.map fun u => |u.coefficient|).sum * |a| := add_le_add ht ih
      _ = (|t.coefficient| + (ts.map fun u => |u.coefficient|).sum) * |a| := by ring

theorem lhs_shift_le : |x.lhs (c.shift p s) - x.lhs p| ≤ x.absSum * c.absSum * |s| := by
  rw [absSum_eq_sum c]
  unfold shift
  induction c.terms generalizing p with
  | nil => simp
  | cons t ts ih =>
    simp only [List.foldl_cons, List.map_cons, List.sum_cons]
    have hfirst := lhs_move_le x p (s * t.coefficient) t.var
    rw [abs_mul] at hfirst
    have hrest := ih (p.move t.var (s * t.coefficient))
    have htriangle := abs_sub_le (x.lhs (ts.foldl (fun q u => q.move u.var (s * u.coefficient))
      (p.move t.var (s * t.coefficient)))) (x.lhs (p.move t.var (s * t.coefficient))) (x.lhs p)
    calc _ ≤ _ := htriangle
      _ ≤ x.absSum * (ts.map fun u => |u.coefficient|).sum * |s| + x.absSum * (|s| * |t.coefficient|) :=
        add_le_add hrest hfirst
      _ = x.absSum * (|t.coefficient| + (ts.map fun u => |u.coefficient|).sum) * |s| := by ring

/-! ## Deficits -/

theorem abs_deficit : |c.deficit p| = |c.error p| := by
  unfold deficit error errorAt
  cases c.relation with
  | eq => rfl
  | ge => rfl
  | le =>
    simp only [rat_smaller, rat_larger]
    rw [show c.lhs p - c.rhs = -(c.rhs - c.lhs p) by ring, ← neg_zero, max_neg_neg, abs_neg, neg_zero]

theorem deficit_towards {c : Constraint Rat} {z : Point Rat} (hz : c.error z = 0) :
    c.deficit p * (c.lhs p - c.lhs z) ≤ -(c.deficit p) ^ 2 := by
  unfold deficit
  unfold error errorAt at hz
  cases hrel : c.relation with
  | eq =>
    simp only [hrel] at hz ⊢
    have : c.lhs z = c.rhs := by linarith
    rw [this]
    exact le_of_eq (by ring)
  | ge =>
    simp only [hrel, rat_larger] at hz ⊢
    have hle : c.rhs - c.lhs z ≤ 0 := max_eq_right_iff.mp hz
    -- without a violation the deficit is zero; otherwise the left side at `z` lies beyond the right side
    rcases le_total (c.rhs - c.lhs p) 0 with h | h
    · rw [max_eq_right h]
      simp
    · rw [max_eq_left h]
      nlinarith
  | le =>
    simp only [hrel, rat_larger, rat_smaller] at hz ⊢
    have hle : c.lhs z - c.rhs ≤ 0 := max_eq_right_iff.mp hz
    rcases le_total (c.rhs - c.lhs p) 0 with h | h
    · rw [min_eq_left h]
      nlinarith
    · rw [min_eq_right h]
      simp

theorem deficit_lipschitz (q : Point Rat) : |c.deficit p - c.deficit q| ≤ |c.lhs p - c.lhs q| := by
  have hswap : |(c.rhs - c.lhs p) - (c.rhs - c.lhs q)| = |c.lhs p - c.lhs q| := by
    rw [sub_sub_sub_cancel_left, abs_sub_comm]
  unfold deficit
  cases c.relation with
  | eq => exact le_of_eq hswap
  | ge =>
    simp only [rat_larger]
    rw [← hswap]
    exact abs_max_sub_max_le_abs _ _ _
  | le =>
    simp only [rat_smaller]
    rw [← hswap]
    have hmin := abs_min_sub_min_le_max (c.rhs - c.lhs p) 0 (c.rhs - c.lhs q) 0
    rwa [sub_zero, abs_zero, max_eq_left (abs_nonneg _)] at hmin

/-! ## Projecting -/

theorem nearZero_pos : (0 : Rat) < nearZero := by
  show (0 : Rat) < 1e-12
  norm_num

theorem deficit_of_isAtRest {c : Constraint Rat} {p : Point Rat} (h : c.isAtRest (c.deficit p) = true) :
    c.deficit p = 0 := by
  unfold isAtRest at h
  rw [Bool.and_eq_true] at h
  exact eq_of_beq h.2

theorem project_of_isAtRest {c : Constraint Rat} {p : Point Rat} (h : c.isAtRest (c.deficit p) = true) :
    c.project p f = ⟨p, 0, false⟩ := by
  rcases c.project_inv p f with ⟨-, hp⟩ | ⟨hrest, -, -⟩ | ⟨hrest, -, -⟩
  · exact hp
  · simp [h] at hrest
  · simp [h] at hrest

theorem project_of_not_isAtRest {c : Constraint Rat} {p : Point Rat} (h : c.isAtRest (c.deficit p) = false)
    (hn : nearZero ≤ c.normSquared) :
    c.project p f = ⟨c.shift p (f * c.deficit p / c.normSquared), |c.deficit p|, true⟩ := by
  rcases c.project_inv p f with ⟨hrest, -⟩ | ⟨-, hlt, -⟩ | ⟨-, -, hp⟩
  · simp [h] at hrest
  · exact absurd hlt (not_lt.mpr hn)
  · rw [hp, rat_abs]

theorem project_cases {c : Constraint Rat} (hn : nearZero ≤ c.normSquared) :
    (c.deficit p = 0 ∧ (c.project p f).point = p) ∨
      (c.project p f).point = c.shift p (f * c.deficit p / c.normSquared) := by
  cases h : c.isAtRest (c.deficit p) with
  | true => exact .inl ⟨deficit_of_isAtRest h, by rw [project_of_isAtRest f h]⟩
  | false => exact .inr (by rw [project_of_not_isAtRest f h hn])

/-- **Projecting brings a point closer to every solution.** -/
theorem gap_project_le {c : Constraint Rat} {z p : Point Rat} (hc : c.Spans p.size) (hn : nearZero ≤ c.normSquared)
    (hz : c.error z = 0) (hf : 0 ≤ f) :
    z.gap (c.project p f).point ≤ z.gap p - f * (2 - f) / c.normSquared * c.deficit p ^ 2 := by
  have hpos : 0 < c.normSquared := lt_of_lt_of_le nearZero_pos hn
  rcases project_cases p f hn with ⟨hd, hp⟩ | hp
  · rw [hp, hd]
    simp
  · rw [hp, gap_shift z _ hc]
    have htowards := deficit_towards p hz
    have hstep : 2 * (f * c.deficit p / c.normSquared) * (c.lhs p - c.lhs z) ≤
        -(2 * f / c.normSquared * c.deficit p ^ 2) := by
      have hscale : 0 ≤ 2 * f / c.normSquared := div_nonneg (by linarith) hpos.le
      have := mul_le_mul_of_nonneg_left htowards hscale
      calc _ = 2 * f / c.normSquared * (c.deficit p * (c.lhs p - c.lhs z)) := by ring
        _ ≤ _ := this
        _ = _ := by ring
    have hsquare : (f * c.deficit p / c.normSquared) ^ 2 * c.normSquared =
        f ^ 2 / c.normSquared * c.deficit p ^ 2 := by
      field_simp
    calc _ ≤ z.gap p + -(2 * f / c.normSquared * c.deficit p ^ 2) + f ^ 2 / c.normSquared * c.deficit p ^ 2 := by
          rw [hsquare]
          linarith
      _ = _ := by ring

/-- **Projecting disturbs another constraint** by at most a multiple of the deficit. -/
theorem lhs_project_le {c : Constraint Rat} (x : Constraint Rat) (hn : nearZero ≤ c.normSquared) (hf : 0 ≤ f) :
    |x.lhs (c.project p f).point - x.lhs p| ≤ x.absSum * c.absSum * (f / c.normSquared) * |c.deficit p| := by
  have hpos : 0 < c.normSquared := lt_of_lt_of_le nearZero_pos hn
  rcases project_cases p f hn with ⟨hd, hp⟩ | hp
  · rw [hp, hd]
    simp
  · rw [hp]
    refine (lhs_shift_le c x p _).trans (le_of_eq ?_)
    rw [show f * c.deficit p / c.normSquared = f / c.normSquared * c.deficit p by ring, abs_mul,
      abs_of_nonneg (div_nonneg hf hpos.le)]
    ring

end Constraint

end SoftLinear
