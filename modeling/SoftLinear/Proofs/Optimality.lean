import SoftLinear.Proofs.Judgement
import SoftLinear.Proofs.ScalarLaws

/-!
# What an optimal status promises

A status is decided by a running maximum of residuals, satisfaction constraint by constraint.  The maximum passes over
undefined residuals, and an undefined residual is below no tolerance.  So the two agree but for constraints whose
residual is undefined, and these are equalities (`Constraint.isNaN_error`): an inequality cuts its violation off at zero,
and the cut passes over an undefined difference as well.
-/

namespace SoftLinear

variable {α : Type} [Scalar α]

theorem Scalar.isNaN_larger_zero [Scalar.Ordered α] (a : α) : isNaN (larger a 0) = false := by
  cases ha : isNaN a with
  | true =>
    unfold larger
    rw [if_pos ha]
    exact Ordered.zero_defined
  | false => exact larger_defined ha

theorem Constraint.isNaN_error [Scalar.Ordered α] (c : Constraint α) (p : Point α) :
    Scalar.isNaN (c.error p) = true ↔ c.relation = .eq ∧ Scalar.isNaN (c.rhs - c.lhs p) = true := by
  unfold error errorAt
  cases c.relation with
  | eq => simp
  | le => simp [Scalar.isNaN_larger_zero]
  | ge => simp [Scalar.isNaN_larger_zero]

namespace System

theorem mem_unsatisfied {s : System α} (h : s.WellFormed) {id : ConstraintId} : id ∈ s.unsatisfied ↔
    ∃ c, s.constraint? id = some c ∧ c.enabled = true ∧ ¬ Scalar.abs (c.error s.values) < s.tolerance := by
  simp only [unsatisfied, List.mem_map, List.mem_filter, mem_live, Constraint.isSatisfied, Bool.not_eq_true',
    decide_eq_false_iff_not]
  constructor
  · rintro ⟨⟨id, c⟩, ⟨⟨-, hc, he⟩, herror⟩, rfl⟩
    exact ⟨c, hc, he, herror⟩
  · rintro ⟨c, hc, he, herror⟩
    have hlisted : id ∈ s.order := (h.listed id).mpr (by rw [hc]; rfl)
    exact ⟨(id, c), ⟨⟨hlisted, hc, he⟩, herror⟩, rfl⟩

/-- Where the largest violation is below the tolerance, unsatisfied are the equalities with an undefined residual. -/
theorem mem_unsatisfied_of_maxError_lt [Scalar.Lawful α] {s : System α} (h : s.WellFormed)
    (hmax : s.maxError < s.tolerance) {id : ConstraintId} : id ∈ s.unsatisfied ↔
    ∃ c, s.constraint? id = some c ∧ c.enabled = true ∧ c.relation = .eq ∧
      Scalar.isNaN (c.rhs - c.lhs s.values) = true := by
  rw [mem_unsatisfied h]
  refine exists_congr fun c => and_congr_right fun hc => and_congr_right fun he => ?_
  rw [← Constraint.isNaN_error, ← Scalar.Lawful.isNaN_abs]
  constructor
  · intro herror
    by_contra hdefined
    have hlisted : id ∈ s.order := (h.listed id).mpr (by rw [hc]; rfl)
    have hmem : c ∈ s.enabledConstraints := List.mem_map.mpr ⟨(id, c), mem_live.mpr ⟨hlisted, hc, he⟩, rfl⟩
    have hbelow := (Scalar.lt_of_foldl_larger_lt Scalar.Ordered.zero_defined hmax).2 c hmem
    exact herror (hbelow (Bool.eq_false_iff.mpr hdefined))
  · intro hnan hlt
    rw [(Scalar.Ordered.defined_of_lt hlt).1] at hnan
    cases hnan

end System

namespace Model

variable {γ : Type} [Generator γ]

/-- **What an optimal status promises.**  After any history, if a solve ends optimally then the constraints that are
unsatisfied all the same are the enabled equalities whose residual is undefined at the values it leaves; so all are
satisfied exactly when there is no such equality. -/
theorem solve_optimal_spec [Scalar.Lawful α] (i : Nat) (e : Engine α γ) (reset : Bool) (edits : List (Edit α)) :
    let m := (Model.new i (some (DirectSolver.new e reset))).replay edits
    let s := m.solve.1.system
    m.solve.2.1 = .optimal →
    (∀ id, id ∈ s.unsatisfied ↔ ∃ c, s.constraint? id = some c ∧ c.enabled = true ∧ c.relation = .eq ∧
      Scalar.isNaN (c.rhs - c.lhs s.values) = true) ∧
    (s.unsatisfied = [] ↔ ∀ id c, s.constraint? id = some c → c.enabled = true → c.relation = .eq →
      Scalar.isNaN (c.rhs - c.lhs s.values) = false) := by
  intro m s hoptimal
  have hm : m.system.WellFormed := replay_wellFormed i _ edits
  have hs : s.WellFormed := (solve_sameOutline hm).wellFormed hm
  obtain ⟨k, -, -, hstatus, -⟩ := (replay_isDriven i e reset edits).solve_spec
  -- the largest residual passes over what is undefined, so it says nothing of such an equality
  have hmax : s.maxError < s.tolerance := Status.verdict_eq_optimal.mp (hstatus.symm.trans hoptimal)
  have hmem : ∀ id, id ∈ s.unsatisfied ↔ ∃ c, s.constraint? id = some c ∧ c.enabled = true ∧ c.relation = .eq ∧
      Scalar.isNaN (c.rhs - c.lhs s.values) = true :=
    fun id => System.mem_unsatisfied_of_maxError_lt hs hmax
  refine ⟨hmem, ?_⟩
  rw [List.eq_nil_iff_forall_not_mem]
  constructor
  · intro hnone id c hc he heq
    by_contra hnan
    exact hnone id ((hmem id).mpr ⟨c, hc, he, heq, Bool.not_eq_false _ ▸ hnan⟩)
  · intro hall id hid
    obtain ⟨c, hc, he, heq, hnan⟩ := (hmem id).mp hid
    rw [hall id c hc he heq] at hnan
    cases hnan

/-- One equality over binary64 that can be solved: the solve ends optimally, and nothing is unsatisfied. -/
theorem solve_optimal_of_equality :
    let m : Model Float (DirectSolver (Engine Float KeyStream)) :=
      (Model.new 0 (some (DirectSolver.new (.kaczmarz ⟨2, 1, 1, []⟩) false))).replay
        [.addVariable none, .add ⟨[⟨1, ⟨0, 0⟩⟩], .eq, .fixed 4, 1, true, none, none⟩]
    m.solve.2.1 = .optimal ∧ ∀ id, id ∈ m.solve.1.system.unsatisfied ↔
      ∃ c, m.solve.1.system.constraint? id = some c ∧ c.enabled = true ∧ c.relation = .eq ∧
        Scalar.isNaN (c.rhs - c.lhs m.solve.1.system.values) = true := by
  intro m
  have hoptimal : m.solve.2.1 = .optimal := by decide +kernel
  exact ⟨hoptimal, (solve_optimal_spec 0 (.kaczmarz ⟨2, 1, 1, []⟩ : Engine Float KeyStream) false
    [.addVariable none, .add ⟨[⟨1, ⟨0, 0⟩⟩], .eq, .fixed 4, 1, true, none, none⟩] hoptimal).1⟩

/-- An equality over binary64 with an undefined right side: the solve ends optimally without a sweep, and the equality is
unsatisfied. -/
theorem solve_optimal_of_undefined_right_side :
    let m : Model Float (DirectSolver (Engine Float KeyStream)) :=
      (Model.new 0 (some (DirectSolver.new (.kaczmarz ⟨0, 1, 1, []⟩) false))).replay
        [.addVariable none, .add ⟨[⟨1, ⟨0, 0⟩⟩], .eq, .fixed (0 / 0), 1, true, none, none⟩]
    m.solve.2.1 = .optimal ∧ m.solve.1.system.unsatisfied = [⟨0⟩] := by
  decide +kernel

end Model

end SoftLinear
