import SoftLinear.Proofs.Convergence
import SoftLinear.Settings.Build

/-!
# Kaczmarz never moves away from a solution

Fix a point `z` where all enabled constraints of the prepared list hold.  Even a run that does not converge, because it
fades too fast or its budget is too small, ends no further from `z` than it began.

A run is a list of projections (`Kaczmarz.projections`, `Kaczmarz.relax_follow`): sweep by sweep the same constraints,
with factors that fade where a constraint is soft, and the hard ones once more at the end of a sweep.  All these factors
are between zero and two (`Kaczmarz.projections_safe`), and a projection with such a factor does not lead away from `z`
(`Safe.gap_project_le`).  Other than for convergence, constraints whose weights vanish may be among them: they are passed
over.
-/

namespace SoftLinear

open Progress

/-! ## Single projections -/

namespace Constraint

variable {c : Constraint Rat} {p : Point Rat} {f : Rat}

theorem le_normSquared_of_moved (h : (c.project p f).moved = true) : nearZero ≤ c.normSquared := by
  rcases c.project_inv p f with ⟨-, hp⟩ | ⟨-, -, hp⟩ | ⟨-, hn, -⟩
  · simp [hp] at h
  · simp [hp] at h
  · exact not_lt.mp hn

theorem point_project_of_not_moved (h : (c.project p f).moved = false) : (c.project p f).point = p := by
  rcases c.project_inv p f with ⟨-, hp⟩ | ⟨-, -, hp⟩ | ⟨-, -, hp⟩
  · rw [hp]
  · rw [hp]
  · simp [hp] at h

end Constraint

/-- A projection that does not lead away from `z`, among points of a size. -/
structure Safe (n : Nat) (z : Point Rat) (y : Constraint Rat × Rat) : Prop where
  spans : y.1.Spans n
  holds : y.1.error z = 0
  pos : 0 < y.2
  lt_two : y.2 < 2

section Follow

variable {n : Nat} {z p : Point Rat} {y : Constraint Rat × Rat} {steps : List (Constraint Rat × Rat)}

/-- A projection that moves the point lowers the squared distance to `z` by what the deficit and the factor say. -/
theorem Safe.gap_le_of_moved (h : Safe n z y) (hp : p.size = n) (hm : (y.1.project p y.2).moved = true) :
    z.gap (y.1.project p y.2).point ≤
      z.gap p - y.2 * (2 - y.2) * y.1.deficit p ^ 2 / y.1.normSquared := by
  have hnorm := Constraint.le_normSquared_of_moved hm
  have hgap := Constraint.gap_project_le y.2 (hp ▸ h.spans) hnorm h.holds h.pos.le
  rwa [div_mul_eq_mul_div] at hgap

theorem Safe.gap_project_le (h : Safe n z y) (hp : p.size = n) : z.gap (y.1.project p y.2).point ≤ z.gap p := by
  cases hm : (y.1.project p y.2).moved with
  | false => rw [Constraint.point_project_of_not_moved hm]
  | true =>
    have hnorm : 0 ≤ y.1.normSquared := Constraint.nearZero_pos.le.trans (Constraint.le_normSquared_of_moved hm)
    have hgain : 0 ≤ y.2 * (2 - y.2) * y.1.deficit p ^ 2 / y.1.normSquared := by
      have hfactor : 0 ≤ y.2 * (2 - y.2) := mul_nonneg h.pos.le (by linarith [h.lt_two])
      exact div_nonneg (mul_nonneg hfactor (sq_nonneg _)) hnorm
    linarith [h.gap_le_of_moved hp hm]

theorem size_follow (steps : List (Constraint Rat × Rat)) (p : Point Rat) : (follow steps p).size = p.size := by
  induction steps generalizing p with
  | nil => rfl
  | cons y ys ih => exact (ih _).trans (Constraint.size_project y.1 p y.2)

theorem follow_append (before after : List (Constraint Rat × Rat)) (p : Point Rat) :
    follow (before ++ after) p = follow after (follow before p) := List.foldl_append

theorem gap_follow_le (hsteps : ∀ y ∈ steps, Safe n z y) (hp : p.size = n) : z.gap (follow steps p) ≤ z.gap p := by
  induction steps generalizing p with
  | nil => exact le_rfl
  | cons y ys ih =>
    obtain ⟨hy, hys⟩ := List.forall_mem_cons.mp hsteps
    have hrest := ih hys ((Constraint.size_project y.1 p y.2).trans hp)
    exact hrest.trans (hy.gap_project_le hp)

end Follow

/-! ## Settings -/

namespace Settings

theorem ok_of_bind {ε : Type} {x y : Except ε Unit} (h : (x >>= fun _ => y) = .ok ()) : x = .ok () ∧ y = .ok () := by
  cases x with
  | error e => cases h
  | ok u => exact ⟨rfl, h⟩

/-- A scalar that is refused neither where it is given nor where the usual one stands in for it passes the test. -/
theorem test_of_check {α : Type} [Scalar α] {test : α → Bool} {problem : α → Problem α} {value : Option α}
    (h : check test problem value = .ok ()) (usual : α) (husual : test usual = true) :
    test (value.getD usual) = true := by
  cases value with
  | none => exact husual
  | some x =>
    simp only [check] at h
    split at h
    · rename_i hx
      exact hx
    · cases h

end Settings

/-- The factors of a relaxation that settings may ask for. -/
structure Kaczmarz.InRange (k : Kaczmarz Rat) : Prop where
  factor_pos : 0 < k.factor
  factor_lt : k.factor < 2
  cooling_pos : 0 < k.cooling
  cooling_le : k.cooling ≤ 1

/-- Valid settings describe a relaxation whose factors are in range, whether they are given or the usual ones. -/
theorem RelaxationSettings.inRange_of_valid {γ : Type} {budget : Option Nat} {factor cooling : Option Rat}
    {k : Kaczmarz Rat} (selector : Selector γ)
    (h : Settings.validateRelaxation (.kaczmarz budget factor cooling) = .ok ())
    (hk : engine (.kaczmarz budget factor cooling) selector = .kaczmarz k) : k.InRange := by
  obtain rfl := Engine.kaczmarz.inj hk
  obtain ⟨-, h⟩ := Settings.ok_of_bind h
  obtain ⟨hfactor, hcooling⟩ := Settings.ok_of_bind h
  have htwo : (2.0 : Rat) = 2 := by norm_num
  have h1 := Settings.test_of_check hfactor 1 (by decide +kernel)
  have h2 := Settings.test_of_check hcooling 1 (by decide +kernel)
  simp only [Bool.and_eq_true, decide_eq_true_eq] at h1 h2
  exact ⟨h1.1, htwo ▸ h1.2, h2.1, h2.2⟩

/-! ## Runs -/

namespace Kaczmarz

variable (k : Kaczmarz Rat) (list : List (ConstraintId × Constraint Rat))

/-- The projections of the first sweeps of a run: the strength of the soft ones fades from sweep to sweep. -/
def projections (sweeps : Nat) : List (Constraint Rat × Rat) :=
  (List.range sweeps).flatMap fun j => k.steps list (k.factor * k.cooling ^ j)

theorem iterate_projections {p : Progress Rat} (hp : p.strength = k.factor) (b j : Nat) :
    ((k.sweep list b)^[j] p).strength = k.factor * k.cooling ^ j ∧
      ((k.sweep list b)^[j] p).point = follow (k.projections list j) p.point := by
  induction j with
  | zero => exact ⟨by simpa using hp, rfl⟩
  | succ j ih =>
    obtain ⟨hs, hq⟩ := k.moves_follow list ((k.sweep list b)^[j] p)
    rw [Function.iterate_succ_apply']
    refine ⟨hs.trans ?_, hq.trans ?_⟩
    · rw [ih.1, pow_succ, mul_assoc]
    · have hsplit : k.projections list (j + 1) = k.projections list j ++ k.steps list (k.factor * k.cooling ^ j) := by
        simp [projections, List.range_succ]
      rw [ih.1, ih.2, hsplit, follow_append]

/-- **A run is the list of its projections.** -/
theorem relax_follow (r : Run Rat (Kaczmarz Rat)) (budget : Nat) :
    (Relaxation.relax r budget).1.system.values =
      follow (r.engine.projections (r.system.live r.engine.prepared) (Relaxation.relax r budget).2.sweeps)
        r.system.values := by
  obtain ⟨j, -, he, hsweeps⟩ := relax_halts r budget
  set list := r.system.live r.engine.prepared
  set start := Progress.start (list.map (·.2)) r.system r.engine.factor r.scope
  have hpoint := (r.engine.iterate_projections list (p := start) rfl budget j).2
  have hstored : (Relaxation.relax r budget).1.system =
      r.system.storeValues (follow (r.engine.projections list j) r.system.values) := by
    show r.system.storeValues (iterate (r.engine.sweep list budget) (fun _ _ => false) budget start).point = _
    rw [he, hpoint]
    rfl
  rw [hstored, hsweeps]
  exact System.values_storeValues _ ((size_follow _ _).trans r.system.size_values)

/-- None of the projections of a run leads away from a point where its constraints hold. -/
theorem projections_safe {s : System Rat} {z : Point Rat} (hk : k.InRange) (hfits : ∀ x ∈ list, x.2.Fits s)
    (hz : ∀ x ∈ list, x.2.error z = 0) (sweeps : Nat) : ∀ y ∈ k.projections list sweeps, Safe s.slots.size z y := by
  intro y hy
  obtain ⟨j, -, hy⟩ := List.mem_flatMap.mp hy
  have hfade : 0 < k.factor * k.cooling ^ j := mul_pos hk.factor_pos (pow_pos hk.cooling_pos j)
  have hle : k.factor * k.cooling ^ j ≤ k.factor :=
    mul_le_of_le_one_right hk.factor_pos.le (pow_le_one₀ hk.cooling_pos.le hk.cooling_le)
  obtain ⟨hpos, hlt⟩ := k.factor_mem_steps list hy hfits hk.factor_lt hfade hle
  obtain ⟨x, hx, hc, -⟩ := k.mem_steps list hy
  exact ⟨hc ▸ (hfits x hx).spans, hc ▸ hz x hx, hpos, hlt⟩

/-- **Kaczmarz never moves away from a solution.**  Take exact arithmetic, a factor strictly between zero and two, a
cooling factor above zero and at most one, and a point `z` where every enabled constraint of the prepared list holds.
Then a run, however long, is a list of projections onto these constraints with factors between zero and two; each of them
that moves the point, with factor `f` and deficit `d` and onto a constraint with squared norm `n`, lowers the squared
distance to `z` by at least `f (2 - f) d² / n`, and the others leave the point where it is; so the values that the run
stores are no further from `z` than those it began with.  That the constraints fit is no more than the edits of a system
see to (`System.WellFormed.fits`). -/
theorem relax_never_recedes (r : Run Rat (Kaczmarz Rat)) (budget : Nat) (hrange : r.engine.InRange)
    (hfits : ∀ x ∈ r.system.live r.engine.prepared, x.2.Fits r.system) (z : Point Rat)
    (hz : ∀ x ∈ r.system.live r.engine.prepared, x.2.error z = 0) :
    let x := r.system.values
    let out := Relaxation.relax r budget
    let made := r.engine.projections (r.system.live r.engine.prepared) out.2.sweeps
    out.1.system.values = follow made x ∧
    (∀ before c f after, made = before ++ (c, f) :: after →
      let p := follow before x
      (0 < f ∧ f < 2) ∧ ((c.project p f).moved = false → (c.project p f).point = p) ∧
      ((c.project p f).moved = true →
        z.gap (c.project p f).point ≤ z.gap p - f * (2 - f) * c.deficit p ^ 2 / c.normSquared)) ∧
    z.gap out.1.system.values ≤ z.gap x := by
  intro x out made
  have hvalues : out.1.system.values = follow made x := relax_follow r budget
  have hsafe := r.engine.projections_safe _ hrange hfits hz out.2.sweeps
  refine ⟨hvalues, ?_, ?_⟩
  · intro before c f after hsplit p
    have hmem : (c, f) ∈ made := by simp [hsplit]
    have hy : Safe r.system.slots.size z (c, f) := hsafe (c, f) hmem
    have hp : p.size = r.system.slots.size := (size_follow before x).trans r.system.size_values
    exact ⟨⟨hy.pos, hy.lt_two⟩, Constraint.point_project_of_not_moved, hy.gap_le_of_moved hp⟩
  · rw [hvalues]
    exact gap_follow_le hsafe r.system.size_values

/-- A hard equality, a soft inequality and a constraint without weight, under settings that overshoot and cool down:
three sweeps from `(-7, 5)` end no further from the solution `(1, 3)`. -/
theorem relax_never_recedes_on_triple :
    let sum : Constraint Rat := .build [⟨1, ⟨0, 0⟩⟩, ⟨1, ⟨0, 1⟩⟩] .eq (.fixed 4)
    let bound : Constraint Rat := { Constraint.build [⟨2, ⟨0, 0⟩⟩] .ge (.fixed 2) with penalty := 0.5 }
    let empty : Constraint Rat := .build [⟨1, ⟨0, 1⟩⟩, ⟨-1, ⟨0, 1⟩⟩] .le (.fixed 0)
    let s : System Rat := { System.empty 0 with
      slots := #[⟨-7, none, [⟨0⟩, ⟨1⟩]⟩, ⟨5, none, [⟨0⟩, ⟨2⟩]⟩]
      attached := [⟨0, 0⟩, ⟨0, 1⟩]
      constraints := #[some sum, some bound, some empty]
      order := [⟨0⟩, ⟨1⟩, ⟨2⟩] }
    let k : Kaczmarz Rat := ⟨defaultBudget, 1.5, 0.5, [⟨0⟩, ⟨1⟩, ⟨2⟩]⟩
    let r : Run Rat (Kaczmarz Rat) := ⟨k, s, { tolerance := s.tolerance }⟩
    let z : Point Rat := #[1, 3]
    Settings.validateRelaxation (.kaczmarz none (some k.factor) (some k.cooling)) = .ok () ∧
      z.gap (Relaxation.relax r 3).1.system.values ≤ z.gap s.values := by
  intro sum bound empty s k r z
  have hvalid : Settings.validateRelaxation (.kaczmarz none (some k.factor) (some k.cooling)) = .ok () := by
    have hfactor : Settings.belowTwo "relaxation.relaxation_factor" (some k.factor) = .ok () :=
      if_pos (by decide +kernel)
    have hcooling : Settings.inUnit "relaxation.cooling_factor" (some k.cooling) = .ok () :=
      if_pos (by decide +kernel)
    rw [Settings.validateRelaxation, hfactor, hcooling]
    rfl
  have hk : ({ k with prepared := [] } : Kaczmarz Rat).InRange :=
    RelaxationSettings.inRange_of_valid (.deterministic : Selector KeyStream) hvalid rfl
  have hrange : r.engine.InRange := ⟨hk.factor_pos, hk.factor_lt, hk.cooling_pos, hk.cooling_le⟩
  have hsum : sum.Fits s := ⟨by decide, by decide, by decide +kernel⟩
  have hbound : bound.Fits s := ⟨by decide, by decide, by decide +kernel⟩
  have hempty : empty.Fits s := ⟨by decide, by decide, by decide +kernel⟩
  have hfits : ∀ x ∈ s.live [⟨0⟩, ⟨1⟩, ⟨2⟩], x.2.Fits s :=
    List.forall_mem_cons.mpr ⟨hsum, List.forall_mem_cons.mpr ⟨hbound, List.forall_mem_singleton.mpr hempty⟩⟩
  exact ⟨hvalid, (relax_never_recedes r 3 hrange hfits z (by decide +kernel)).2.2⟩

end Kaczmarz

end SoftLinear
