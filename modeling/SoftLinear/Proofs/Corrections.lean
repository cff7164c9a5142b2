import SoftLinear.Proofs.Coefficients
import SoftLinear.Proofs.Frame
import SoftLinear.Proofs.Merging

/-!
# Corrections

A step in favour of one constraint stays where the constraint holds, and elsewhere lets the left side make up a share of
what it is away from the right side (`Constraint.Corrects`).  What the share does to the violation does not depend on how
the step was made: the whole share leaves no violation, a share between zero and two lowers it, and a share of at most
one does not carry the left side past the right side.

* Kaczmarz moves all variables of the constraint along its weights, and the share is the factor of the projection
  (`Constraint.corrects_project`);
* Gauss–Seidel moves the pivot alone, and the share is the weight of the move (`GaussSeidel.corrects_movePivot`).

Both depend on each variable having one term and a place of its own (`Placed`).  A place at which two terms meet would be
moved, and read, for both of them, and the left side would not change by the share.
-/

namespace SoftLinear

theorem abs_max_zero_lt {a w : Rat} (ha : max a 0 ≠ 0) (hw : 0 < w) : |max ((1 - w) * a) 0| < |max a 0| := by
  have hpos : 0 < a := not_le.mp fun hle => ha (max_eq_right hle)
  rw [abs_of_nonneg (le_max_right _ _), abs_of_nonneg (le_max_right _ _), max_eq_left hpos.le]
  exact max_lt (mul_lt_of_lt_one_left hpos (by linarith)) hpos

namespace Constraint

variable {c : Constraint Rat} {p q : Point Rat} {w : Rat}

/-! ## Shares -/

/-- A step from `p` to `q` in favour of a constraint, by a share. -/
inductive Corrects (c : Constraint Rat) (w : Rat) (p : Point Rat) : Point Rat → Prop where
  | rest : c.error p = 0 → Corrects c w p p
  | move {q : Point Rat} : c.rhs - c.lhs q = (1 - w) * (c.rhs - c.lhs p) → Corrects c w p q

theorem Corrects.error_eq_zero (h : c.Corrects 1 p q) : c.error q = 0 := by
  cases h with
  | rest hp => exact hp
  | move h =>
    have hsides : c.lhs q = c.rhs := by linarith
    rw [error, hsides, errorAt_rhs]

/-- **A share between zero and two lowers a violation.** -/
theorem Corrects.abs_error_lt (h : c.Corrects w p q) (hpos : 0 < w) (hlt : w < 2) (hp : c.error p ≠ 0) :
    |c.error q| < |c.error p| := by
  cases h with
  | rest h => exact absurd h hp
  | move h =>
    unfold error errorAt at hp ⊢
    cases hrelation : c.relation with
    | eq =>
      -- a share above one takes the left side past the right side, but not as far away again
      simp only [hrelation] at hp ⊢
      have hshare : |1 - w| < 1 := abs_lt.mpr ⟨by linarith, by linarith⟩
      rw [h, abs_mul]
      exact mul_lt_of_lt_one_left (abs_pos.mpr hp) hshare
    | ge =>
      simp only [hrelation, rat_larger] at hp ⊢
      rw [h]
      exact abs_max_zero_lt hp hpos
    | le =>
      simp only [hrelation, rat_larger] at hp ⊢
      have hswap : c.lhs q - c.rhs = (1 - w) * (c.lhs p - c.rhs) := by linarith
      rw [hswap]
      exact abs_max_zero_lt hp hpos

/-- A share of at most one leaves the left side on the side on which it was. -/
theorem Corrects.not_past (h : c.Corrects w p q) (hw : w ≤ 1) :
    (c.lhs p ≤ c.rhs → c.lhs q ≤ c.rhs) ∧ (c.rhs ≤ c.lhs p → c.rhs ≤ c.lhs q) := by
  cases h with
  | rest _ => exact ⟨id, id⟩
  | move h =>
    have hleft : 0 ≤ 1 - w := by linarith
    constructor
    · intro hp
      have := mul_nonneg hleft (sub_nonneg.mpr hp)
      linarith
    · intro hp
      have := mul_nonneg hleft (sub_nonneg.mpr hp)
      linarith

/-! ## Where a step is asked for -/

theorem isAtRest_deficit_iff : c.isAtRest (c.deficit p) = true ↔ c.relation ≠ .eq ∧ c.error p = 0 := by
  rw [← abs_eq_zero, ← abs_deficit, abs_eq_zero]
  simp [isAtRest]

theorem not_isAtRest_deficit (h : c.relation = .eq ∨ c.error p ≠ 0) : c.isAtRest (c.deficit p) = false := by
  rw [← Bool.not_eq_true, isAtRest_deficit_iff]
  tauto

theorem deficit_eq_of_not_isAtRest (h : c.isAtRest (c.deficit p) = false) : c.deficit p = c.rhs - c.lhs p := by
  unfold isAtRest deficit at h
  unfold deficit
  cases hrelation : c.relation with
  | eq => rfl
  -- a deficit that is cut off is zero, and then an inequality is at rest
  | ge =>
    simp only [hrelation, rat_larger] at h ⊢
    rcases max_choice (c.rhs - c.lhs p) 0 with hmax | hmax
    · exact hmax
    · simp [hmax] at h
  | le =>
    simp only [hrelation, rat_smaller] at h ⊢
    rcases min_choice (c.rhs - c.lhs p) 0 with hmin | hmin
    · exact hmin
    · simp [hmin] at h

/-! ## Projecting -/

theorem spans_of_merge {ts : List (Term Rat)} {n : Nat} (hterms : c.terms = Term.merge ts)
    (h : Placed n (ts.map (·.var))) : c.Spans n := by
  refine spans_of_placed (hterms ▸ Term.nodup_merge ts) (h.mono fun v hv => ?_)
  rw [hterms] at hv
  exact Term.mem_vars_merge.mp hv

theorem lhs_project (hc : c.Spans p.size) (hn : nearZero ≤ c.normSquared) (h : c.isAtRest (c.deficit p) = false)
    (f : Rat) : c.rhs - c.lhs (c.project p f).point = (1 - f) * c.deficit p := by
  have hnorm : c.normSquared ≠ 0 := (nearZero_pos.trans_le hn).ne'
  rw [project_of_not_isAtRest f h hn, lhs_shift c hc.inside, dot_self hc, div_mul_cancel₀ _ hnorm,
    deficit_eq_of_not_isAtRest h]
  ring

theorem corrects_project (hc : c.Spans p.size) (hn : nearZero ≤ c.normSquared) (f : Rat) :
    c.Corrects f p (c.project p f).point := by
  cases h : c.isAtRest (c.deficit p) with
  | true =>
    rw [project_of_isAtRest f h]
    exact .rest (isAtRest_deficit_iff.mp h).2
  | false => exact .move ((lhs_project hc hn h f).trans (by rw [deficit_eq_of_not_isAtRest h]))

theorem coord_project (hc : c.Spans p.size) (hn : nearZero ≤ c.normSquared) (h : c.isAtRest (c.deficit p) = false)
    (f : Rat) {t : Term Rat} (ht : t ∈ c.terms) :
    (c.project p f).point.coord t.var = p.coord t.var + f * c.deficit p / c.normSquared * t.coefficient := by
  rw [project_of_not_isAtRest f h hn, coord_shift hc.inside, weightAt_of_mem hc ht]

/-- **A projection makes up the factor of the deficit.**  In exact arithmetic, build a constraint from any terms, whose
weights do not vanish, and take a point in which its variables have places of their own, as the variables of one system
have (`System.placed_of_owned`).  If the constraint is an inequality that holds, projecting by whatever factor changes
nothing.  If it is an equality or violated, projecting by a factor `f` reports the magnitude of the deficit `d`, moves the
variables of the constraint, and no others, by a multiple of their weights, and leaves the right side at `(1 - f) d` from
the left side.  So factor one leaves no violation, and a factor strictly between zero and two lowers any. -/
theorem project_corrects (ts : List (Term Rat)) (relation : Relation) (rightSide : RightSide Rat) (penalty f : Rat)
    (p : Point Rat) (hplaced : Placed p.size (ts.map (·.var)))
    (hnorm : nearZero ≤ (build ts relation rightSide).normSquared) :
    let c : Constraint Rat := { build ts relation rightSide with penalty := penalty }
    let d := c.deficit p
    let q := (c.project p f).point
    (c.relation ≠ .eq → c.error p = 0 → c.project p f = ⟨p, 0, false⟩) ∧
    (c.relation = .eq ∨ c.error p ≠ 0 →
      (c.project p f).residual = |d| ∧ (c.project p f).moved = true ∧
      q.size = p.size ∧ (∀ i, c.Avoids i → q[i]? = p[i]?) ∧
      (∃ step, ∀ t ∈ c.terms, q.coord t.var = p.coord t.var + step * t.coefficient) ∧
      c.rhs - c.lhs q = (1 - f) * d) ∧
    (f = 1 → c.error q = 0) ∧
    (0 < f → f < 2 → c.error p ≠ 0 → |c.error q| < |c.error p|) := by
  intro c d q
  have hspans : c.Spans p.size := spans_of_merge rfl hplaced
  have hstep : c.Corrects f p q := corrects_project hspans hnorm f
  refine ⟨fun hrelation hp => ?_, fun hasked => ?_, ?_, hstep.abs_error_lt⟩
  · exact project_of_isAtRest f (isAtRest_deficit_iff.mpr ⟨hrelation, hp⟩)
  · have hrest : c.isAtRest d = false := not_isAtRest_deficit hasked
    have hmove := project_of_not_isAtRest f hrest hnorm
    exact ⟨by rw [hmove], by rw [hmove], size_project c p f, fun i hi => hi.project p f,
      ⟨_, fun t ht => coord_project hspans hnorm hrest f ht⟩, lhs_project hspans hnorm hrest f⟩
  · rintro rfl
    exact hstep.error_eq_zero

/-- A soft inequality that names a variable twice, at a point with room for a third variable: an overshooting factor, and
the whole of the deficit. -/
theorem project_corrects_of_repetition :
    let ts : List (Term Rat) := [⟨2, ⟨0, 0⟩⟩, ⟨-1, ⟨0, 1⟩⟩, ⟨1, ⟨0, 0⟩⟩]
    let c : Constraint Rat := { build ts .ge (.fixed 11) with penalty := 0.5 }
    let s : System Rat := { System.empty 0 with slots := #[⟨1, none, []⟩, ⟨2, none, []⟩, ⟨7, none, []⟩] }
    let p := s.values
    Placed p.size (ts.map (·.var)) ∧ nearZero ≤ c.normSquared ∧ c.error p ≠ 0 ∧
      (c.project p 1.5).point[2]? = some 7 ∧ c.rhs - c.lhs (c.project p 1.5).point = -5 ∧
      |c.error (c.project p 1.5).point| < |c.error p| ∧ c.error (c.project p 1).point = 0 := by
  intro ts c s p
  have howned : ∀ v ∈ ts.map (·.var), s.owns v = true := by decide
  have hplaced : Placed p.size (ts.map (·.var)) := s.size_values ▸ s.placed_of_owned howned
  have hnorm : nearZero ≤ c.normSquared := by decide +kernel
  have hviolated : c.error p ≠ 0 := by decide +kernel
  have hdeficit : c.deficit p = 10 := by decide +kernel
  have havoids : ∀ t ∈ c.terms, t.var.index ≠ 2 := by decide +kernel
  have hthird : p[2]? = some 7 := by decide +kernel
  obtain ⟨-, hasked, -, hlower⟩ := project_corrects ts .ge (.fixed 11) 0.5 1.5 p hplaced hnorm
  obtain ⟨-, -, -, hkept, -, hsides⟩ := hasked (.inr hviolated)
  obtain ⟨-, -, hwhole, -⟩ := project_corrects ts .ge (.fixed 11) 0.5 1 p hplaced hnorm
  refine ⟨hplaced, hnorm, hviolated, (hkept 2 havoids).trans hthird, ?_, ?_, hwhole rfl⟩
  · rw [hsides, hdeficit]
    norm_num
  · exact hlower (by norm_num) (by norm_num) hviolated

end Constraint

/-! ## Moving a pivot -/

namespace GaussSeidel

variable {c : Constraint Rat} {p : Point Rat} {v : Variable} {factor a : Rat}

theorem weight_eq (factor a : Rat) (c : Constraint Rat) :
    weight factor c a = factor * |a| / c.absSum * if c.isHard then 1 else c.penalty := by
  unfold weight
  simp only [rat_abs]
  split
  · rw [mul_one]
  · rfl

/-- **The weight of a move** is positive and at most the factor. -/
theorem weight_bounds (hpenalty : 0 < c.penalty ∧ c.penalty ≤ 1) (hfactor : 0 < factor) (ha : a ≠ 0)
    (hle : |a| ≤ c.absSum) : 0 < weight factor c a ∧ weight factor c a ≤ factor := by
  have hpos : 0 < |a| := abs_pos.mpr ha
  have hsum : 0 < c.absSum := hpos.trans_le hle
  have hshare : 0 < factor * |a| / c.absSum := div_pos (mul_pos hfactor hpos) hsum
  have hshare_le : factor * |a| / c.absSum ≤ factor :=
    (div_le_iff₀ hsum).mpr (mul_le_mul_of_nonneg_left hle hfactor.le)
  have hdamping : 0 < (if c.isHard then 1 else c.penalty) ∧ (if c.isHard then 1 else c.penalty) ≤ 1 := by
    split
    · exact ⟨one_pos, le_rfl⟩
    · exact hpenalty
  rw [weight_eq]
  exact ⟨mul_pos hshare hdamping.1, (mul_le_of_le_one_right hshare.le hdamping.2).trans hshare_le⟩

theorem movePivot_of_isAtRest (factor : Rat) (v : Variable) (h : c.isAtRest (c.deficit p) = true) :
    movePivot factor c v (c.deficit p) p = (p, false) := by
  rcases movePivot_inv factor c v (c.deficit p) p with ⟨-, hp⟩ | ⟨hrest, -, -⟩
  · exact hp
  · simp [h] at hrest

theorem movePivot_of_not_isAtRest (factor : Rat) (h : c.isAtRest (c.deficit p) = false)
    (hv : nearZero < |c.coefficientOf v|) :
    movePivot factor c v (c.deficit p) p =
      (p.move v (weight factor c (c.coefficientOf v) * c.deficit p / c.coefficientOf v), true) := by
  rcases movePivot_inv factor c v (c.deficit p) p with ⟨hrest | hlight, -⟩ | ⟨-, -, hp⟩
  · simp [h] at hrest
  · exact absurd hv (not_lt.mpr (rat_abs (c.coefficientOf v) ▸ hlight))
  · exact hp

theorem getElem?_movePivot_of_ne {i : Nat} (hi : i ≠ v.index) (factor deficit : Rat) (c : Constraint Rat)
    (p : Point Rat) : (movePivot factor c v deficit p).1[i]? = p[i]? := by
  rcases movePivot_inv factor c v deficit p with ⟨-, hp⟩ | ⟨-, -, hp⟩
  · rw [hp]
  · rw [hp, Point.move_of_ne p (Ne.symm hi)]

theorem lhs_movePivot (hc : c.Spans p.size) (h : c.isAtRest (c.deficit p) = false)
    (hv : nearZero < |c.coefficientOf v|) (factor : Rat) :
    c.rhs - c.lhs (movePivot factor c v (c.deficit p) p).1 =
      (1 - weight factor c (c.coefficientOf v)) * c.deficit p := by
  have hne : c.coefficientOf v ≠ 0 := abs_pos.mp (Constraint.nearZero_pos.trans hv)
  obtain ⟨t, ht, rfl, hcoefficient⟩ := Constraint.exists_term_of_coefficientOf hne
  rw [movePivot_of_not_isAtRest factor h hv, Constraint.lhs_move c (hc.inside t ht), Constraint.weightAt_of_mem hc ht,
    ← hcoefficient, mul_div_cancel₀ _ hne, Constraint.deficit_eq_of_not_isAtRest h]
  ring

theorem corrects_movePivot (hc : c.Spans p.size) (hv : nearZero < |c.coefficientOf v|) (factor : Rat) :
    c.Corrects (weight factor c (c.coefficientOf v)) p (movePivot factor c v (c.deficit p) p).1 := by
  cases h : c.isAtRest (c.deficit p) with
  | true =>
    rw [movePivot_of_isAtRest factor v h]
    exact .rest (Constraint.isAtRest_deficit_iff.mp h).2
  | false => exact .move ((lhs_movePivot hc h hv factor).trans (by rw [Constraint.deficit_eq_of_not_isAtRest h]))

theorem weight_of_single (hhard : c.isHard = true) (hsingle : c.terms.length = 1) (hv : c.coefficientOf v ≠ 0) :
    weight 1 c (c.coefficientOf v) = 1 := by
  obtain ⟨t, ht, rfl, hcoefficient⟩ := Constraint.exists_term_of_coefficientOf hv
  obtain ⟨u, hu⟩ := List.length_eq_one_iff.mp hsingle
  obtain rfl : t = u := by simpa [hu] using ht
  have hsum : c.absSum = |c.coefficientOf t.var| := by
    rw [Constraint.absSum_eq_sum, hu, hcoefficient]
    simp
  rw [weight_eq, hsum, if_pos hhard, one_mul, mul_one, div_self (abs_ne_zero.mpr hv)]

/-- **A pivot makes up its damped share of the deficit.**  In exact arithmetic, build a constraint from any terms, with a
penalty above zero and at most one, and take a variable whose weight does not vanish, a factor strictly between zero and
two, and a point in which the variables of the constraint have places of their own, as the variables of one system have
(`System.placed_of_owned`).  The factor times the share of the variable in the magnitudes, and times the penalty if the
constraint is soft, is a number `w` strictly between zero and two.  If the constraint is an inequality that holds, moving
the pivot changes nothing.  If it is an equality or violated with deficit `d`, the value of the pivot changes and no
other, and the right side is left at `(1 - w) d` from the left side.  So any violation is lowered; at a factor of at most
one the left side does not get past the right side; and at factor one a hard constraint with a single term holds. -/
theorem movePivot_corrects (ts : List (Term Rat)) (relation : Relation) (rightSide : RightSide Rat)
    (penalty factor : Rat) (v : Variable) (p : Point Rat) (hpenalty : 0 < penalty ∧ penalty ≤ 1)
    (hfactor : 0 < factor ∧ factor < 2) (hplaced : Placed p.size (ts.map (·.var)))
    (hpivot : nearZero < |(Constraint.build ts relation rightSide).coefficientOf v|) :
    let c : Constraint Rat := { Constraint.build ts relation rightSide with penalty := penalty }
    let d := c.deficit p
    let q := (movePivot factor c v d p).1
    let w := factor * |c.coefficientOf v| / c.absSum * if c.isHard then 1 else penalty
    (0 < w ∧ w < 2) ∧
    (c.relation ≠ .eq → c.error p = 0 → movePivot factor c v d p = (p, false)) ∧
    (c.relation = .eq ∨ c.error p ≠ 0 →
      (movePivot factor c v d p).2 = true ∧
      q.size = p.size ∧ (∀ i, i ≠ v.index → q[i]? = p[i]?) ∧
      c.rhs - c.lhs q = (1 - w) * d) ∧
    (c.error p ≠ 0 → |c.error q| < |c.error p|) ∧
    (factor ≤ 1 → (c.lhs p ≤ c.rhs → c.lhs q ≤ c.rhs) ∧ (c.rhs ≤ c.lhs p → c.rhs ≤ c.lhs q)) ∧
    (c.isHard = true → c.terms.length = 1 → factor = 1 → c.error q = 0) := by
  intro c d q w
  have hspans : c.Spans p.size := Constraint.spans_of_merge rfl hplaced
  have hne : c.coefficientOf v ≠ 0 := abs_pos.mp (Constraint.nearZero_pos.trans hpivot)
  have hle : |c.coefficientOf v| ≤ c.absSum := by
    obtain ⟨t, ht, -, hcoefficient⟩ := Constraint.exists_term_of_coefficientOf hne
    rw [hcoefficient]
    exact Constraint.abs_coefficient_le_absSum ht
  have hw : weight factor c (c.coefficientOf v) = w := weight_eq factor _ c
  obtain ⟨hpos, hwle⟩ := weight_bounds (c := c) hpenalty hfactor.1 hne hle
  -- the last three parts hold of every move that leaves the share `1 - w` of the deficit
  have hstep : c.Corrects w p q := hw ▸ corrects_movePivot hspans hpivot factor
  rw [hw] at hpos hwle
  have hlt : w < 2 := hwle.trans_lt hfactor.2
  refine ⟨⟨hpos, hlt⟩, fun hrelation hp => ?_, fun hasked => ?_, hstep.abs_error_lt hpos hlt,
    fun hone => hstep.not_past (hwle.trans hone), ?_⟩
  · exact movePivot_of_isAtRest factor v (Constraint.isAtRest_deficit_iff.mpr ⟨hrelation, hp⟩)
  · have hrest : c.isAtRest d = false := Constraint.not_isAtRest_deficit hasked
    have hmove := movePivot_of_not_isAtRest factor hrest hpivot
    have hsides : c.rhs - c.lhs q = (1 - w) * d := hw ▸ lhs_movePivot hspans hrest hpivot factor
    exact ⟨by rw [hmove], size_movePivot factor c v d p, fun i hi => getElem?_movePivot_of_ne hi factor d c p, hsides⟩
  · rintro hhard hsingle rfl
    have hwhole : w = 1 := hw.symm.trans (weight_of_single hhard hsingle hne)
    exact Constraint.Corrects.error_eq_zero (hwhole ▸ hstep)

/-- A soft inequality whose pivot has a negative weight and half of the magnitudes, at penalty one half and an
overshooting factor; and a hard equality with a single term, at factor one. -/
theorem movePivot_corrects_of_negative :
    let ts : List (Term Rat) := [⟨2, ⟨0, 0⟩⟩, ⟨-3, ⟨0, 1⟩⟩, ⟨1, ⟨0, 0⟩⟩]
    let c : Constraint Rat := { Constraint.build ts .le (.fixed (-11)) with penalty := 0.5 }
    let single : Constraint Rat := .build [⟨-3, ⟨0, 1⟩⟩] .eq (.fixed 5)
    let s : System Rat := { System.empty 0 with slots := #[⟨1, none, []⟩, ⟨2, none, []⟩] }
    let p := s.values
    let q := (movePivot 1.5 c ⟨0, 1⟩ (c.deficit p) p).1
    Placed p.size (ts.map (·.var)) ∧ nearZero < |c.coefficientOf ⟨0, 1⟩| ∧ c.error p ≠ 0 ∧
      q[0]? = some 1 ∧ c.rhs - c.lhs q = (1 - 3 / 8) * -8 ∧ |c.error q| < |c.error p| ∧
      single.error (movePivot 1 single ⟨0, 1⟩ (single.deficit p) p).1 = 0 := by
  intro ts c single s p q
  have howned : ∀ v ∈ ts.map (·.var), s.owns v = true := by decide
  have hplaced : Placed p.size (ts.map (·.var)) := s.size_values ▸ s.placed_of_owned howned
  have hpivot : nearZero < |c.coefficientOf ⟨0, 1⟩| := by decide +kernel
  have hviolated : c.error p ≠ 0 := by decide +kernel
  obtain ⟨-, -, hasked, hlower, -, -⟩ := movePivot_corrects ts .le (.fixed (-11)) 0.5 1.5 ⟨0, 1⟩ p
    (by norm_num) (by norm_num) hplaced hpivot
  obtain ⟨-, -, hkept, hsides⟩ := hasked (.inr hviolated)
  obtain ⟨-, -, -, -, -, hwhole⟩ := movePivot_corrects [⟨-3, ⟨0, 1⟩⟩] .eq (.fixed 5) 1 1 ⟨0, 1⟩ p
    (by norm_num) (by norm_num) (hplaced.mono (by decide)) (by decide +kernel)
  have hfirst : p[0]? = some 1 := by decide +kernel
  refine ⟨hplaced, hpivot, hviolated, (hkept 0 (by decide)).trans hfirst, hsides.trans (by decide +kernel),
    hlower hviolated, hwhole rfl rfl rfl⟩

end GaussSeidel

end SoftLinear
