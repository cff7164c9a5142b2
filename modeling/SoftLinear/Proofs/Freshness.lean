import SoftLinear.Proofs.Arena
import SoftLinear.Proofs.Judgement

/-!
# A prepared solver solves like a new one

A direct solver keeps its relaxation prepared from one solve to the next.  There are two copies of the prepared list: the
one of the solver is compared with the enabled constraints, and the one of the relaxation is swept over.  If an edit could
set them apart, a solve would sweep over a stale list without any sign of it.

No edit does (`DirectSolver.Kept`), so a solve is what a new solver would make of the same system (`Kept.solve_eq`).  This
holds for the relaxations whose preparation is nothing but the list; one that chooses pivots has also its entries to keep.
-/

namespace SoftLinear

namespace Model

variable {α σ : Type} [Scalar α] [Solver α σ] {P : σ → Prop} {m : Model α σ}

/-- What every call of a solver keeps, a history keeps as long as no other solver is installed. -/
theorem perform_keeps (h : Solver.Keeps α P) (hm : ∃ x, m.solver = some x ∧ P x) (actions : List (Action α σ))
    (hactions : ∀ x, .install x ∉ actions) : ∃ x, (m.perform actions).solver = some x ∧ P x := by
  unfold perform
  induction actions generalizing m with
  | nil => exact hm
  | cons a actions ih =>
    refine ih ?_ fun x hx => hactions x (List.mem_cons_of_mem _ hx)
    cases a with
    | edit e => exact apply_keeps h hm e
    | install x => exact absurd List.mem_cons_self (hactions x)
    | flag id b => exact hm

end Model

/-! ## Relaxations that need nothing but a list -/

variable {α γ : Type} [Scalar α] [Generator γ]

namespace Engine

omit [Scalar α] [Generator γ] in
/-- Whether a relaxation chooses pivots when it is prepared. -/
def choosesPivots : Engine α γ → Bool
  | gaussSeidel _ => true
  | _ => false

omit [Scalar α] [Generator γ] in
/-- The same relaxation with another prepared list. -/
def withPrepared (ids : List ConstraintId) : Engine α γ → Engine α γ
  | kaczmarz k => kaczmarz { k with prepared := ids }
  | gaussSeidel g => gaussSeidel { g with prepared := ids }
  | forceDirected f => forceDirected { f with prepared := ids }

omit [Scalar α] [Generator γ] in
@[simp] theorem prepared_withPrepared (e : Engine α γ) (ids : List ConstraintId) :
    (e.withPrepared ids).prepared = ids := by
  cases e <;> rfl

omit [Scalar α] [Generator γ] in
@[simp] theorem withPrepared_withPrepared (e : Engine α γ) (ids ids' : List ConstraintId) :
    (e.withPrepared ids).withPrepared ids' = e.withPrepared ids' := by
  cases e <;> rfl

omit [Scalar α] [Generator γ] in
@[simp] theorem choosesPivots_withPrepared (e : Engine α γ) (ids : List ConstraintId) :
    (e.withPrepared ids).choosesPivots = e.choosesPivots := by
  cases e <;> rfl

theorem prepare_eq {r : Run α (Engine α γ)} (h : r.engine.choosesPivots = false) (ids : List ConstraintId) :
    Relaxation.prepare r ids = { r with engine := r.engine.withPrepared ids } := by
  obtain ⟨e, s, scope⟩ := r
  cases e with
  | kaczmarz k => rfl
  | gaussSeidel g => cases h
  | forceDirected f => rfl

theorem engine_relax {r : Run α (Engine α γ)} (h : r.engine.choosesPivots = false) (n : Nat) :
    (Relaxation.relax r n).1.engine = r.engine := by
  obtain ⟨e, s, scope⟩ := r
  cases e with
  | kaczmarz k => rfl
  | gaussSeidel g => cases h
  | forceDirected f => rfl

theorem withdraw_eq {e : Engine α γ} (h : e.choosesPivots = false) (s : System α) (id : ConstraintId) :
    Relaxation.withdraw e s id = (e.withPrepared (id.erase e.prepared), true) := by
  cases e with
  | kaczmarz k => rfl
  | gaussSeidel g => cases h
  | forceDirected f => rfl

end Engine

/-! ## Solvers that keep their preparation -/

namespace DirectSolver

/-- The solver was made of a relaxation and still has its parameters, and the list that it believes to be prepared is
prepared. -/
structure Kept (e : Engine α γ) (reset : Bool) (d : DirectSolver (Engine α γ)) : Prop where
  engine : d.engine = e.withPrepared d.engine.prepared
  reset : d.reset = reset
  prepared : ∀ l, d.prepared = some l → d.engine.prepared = l

variable {e : Engine α γ} {reset : Bool} {d : DirectSolver (Engine α γ)}

omit [Scalar α] [Generator γ] in
theorem new_kept (e : Engine α γ) (reset : Bool) : Kept e reset (new e reset) := by
  refine ⟨?_, rfl, fun l hl => by cases hl⟩
  cases e <;> rfl

theorem Kept.ready_eq (h : Kept e reset d) (he : e.choosesPivots = false) (s : System α) (scope : Scope α)
    (enabled : List ConstraintId) : d.ready ⟨d.engine, s, scope⟩ enabled = ⟨e.withPrepared enabled, s, scope⟩ := by
  unfold ready
  split
  · rename_i hl
    rw [h.engine, h.prepared enabled hl]
  · have hplain : d.engine.choosesPivots = false := by
      rw [h.engine, Engine.choosesPivots_withPrepared]
      exact he
    have hengine : d.engine.withPrepared enabled = e.withPrepared enabled := by
      rw [h.engine, Engine.withPrepared_withPrepared]
    rw [Engine.prepare_eq hplain, hengine]

/-- **A solve is what a new solver makes of the same system.** -/
theorem Kept.solve_eq (h : Kept e reset d) (he : e.choosesPivots = false) (s : System α) :
    d.solve s = (new e reset).solve s := by
  have hready := h.ready_eq he (s.seed reset) { tolerance := (s.seed reset).tolerance } (s.seed reset).enabledIds
  have hnew := (new_kept e reset).ready_eq he (s.seed reset) { tolerance := (s.seed reset).tolerance }
    (s.seed reset).enabledIds
  obtain ⟨engine, reset', prepared, stats⟩ := d
  obtain rfl : reset' = reset := h.reset
  unfold solve
  simp only at hready hnew ⊢
  rw [hready, show (new e reset').reset = reset' from rfl, hnew]

theorem Kept.solve (h : Kept e reset d) (he : e.choosesPivots = false) (s : System α) :
    Kept e reset (d.solve s).solver := by
  let t := s.seed d.reset
  have hready : (d.task s).engine = e.withPrepared t.enabledIds :=
    congrArg Run.engine (h.ready_eq he t { tolerance := t.tolerance } t.enabledIds)
  have hplain : (d.task s).engine.choosesPivots = false := by
    rw [hready, Engine.choosesPivots_withPrepared]
    exact he
  have hengine : (d.solve s).solver.engine = e.withPrepared t.enabledIds :=
    (Engine.engine_relax hplain _).trans hready
  refine ⟨?_, h.reset, ?_⟩
  · rw [hengine, Engine.prepared_withPrepared]
  · rintro l ⟨⟩
    rw [hengine, Engine.prepared_withPrepared]

theorem Kept.removed (h : Kept e reset d) (he : e.choosesPivots = false) (s : System α) (id : ConstraintId) :
    Kept e reset (d.removed s id) := by
  have hplain : d.engine.choosesPivots = false := by
    rw [h.engine, Engine.choosesPivots_withPrepared]
    exact he
  have hwithdraw := Engine.withdraw_eq hplain s id
  have hengine : (d.removed s id).engine = e.withPrepared (id.erase d.engine.prepared) := by
    simp only [DirectSolver.removed, hwithdraw]
    rw [h.engine, Engine.withPrepared_withPrepared, Engine.prepared_withPrepared]
  refine ⟨?_, h.reset, ?_⟩
  · rw [hengine, Engine.prepared_withPrepared]
  · intro l hl
    simp only [DirectSolver.removed, hwithdraw, if_true] at hl
    obtain ⟨l', hl', rfl⟩ := Option.map_eq_some_iff.mp hl
    rw [hengine, Engine.prepared_withPrepared, h.prepared l' hl']

/-- **No call sets the two lists apart.**  A new constraint makes the solver forget its list, a removed one is taken out of
both, and a changed flag shows when the list is compared. -/
theorem keeps_kept (he : e.choosesPivots = false) (reset : Bool) : Solver.Keeps α (Kept e reset) where
  solve _ s h := h.solve he s
  added _ _ _ h := ⟨h.engine, h.reset, fun l hl => by cases hl⟩
  enabled _ _ _ _ h := h
  removed _ s id _ h := h.removed he s id

end DirectSolver

namespace Model

/-- **The prepared solver equals a new one.**  Install a direct solver over Kaczmarz or force-directed relaxation in any
model, and make any edits, solves and silent changes of flags.  Then the next solve is the one that the solver would make
if it were new: with the same status, values, sweeps and projections, the same reports, and the same solver afterwards. -/
theorem solve_eq_fresh (s : System α) (lastStatus : Option Status) (e : Engine α γ) (he : e.choosesPivots = false)
    (reset : Bool) (actions : List (Action α (DirectSolver (Engine α γ)))) (hactions : ∀ x, .install x ∉ actions) :
    let m := (Model.mk s (some (DirectSolver.new e reset)) lastStatus).perform actions
    m.solve = { m with solver := some (DirectSolver.new e reset) }.solve := by
  intro m
  obtain ⟨d, hd, hkept⟩ : ∃ d, m.solver = some d ∧ d.Kept e reset :=
    perform_keeps (DirectSolver.keeps_kept he reset) ⟨_, rfl, DirectSolver.new_kept e reset⟩ actions hactions
  have hsolve : Solver.solve d m.system = Solver.solve (DirectSolver.new e reset) m.system := hkept.solve_eq he m.system
  rw [solve_of_solver hd, solve_of_solver rfl, hsolve]

/-- After a solve over binary64 one constraint is removed and another is disabled without a word: the list of the solver
has the one and not the other taken out, and still the next solve is that of a new solver. -/
theorem solve_eq_fresh_of_silent_flag :
    let x : List (Term Float) := [⟨1, ⟨0, 0⟩⟩]
    let e : Engine Float KeyStream := .kaczmarz ⟨3, 1, 1, []⟩
    let actions : List (Action Float (DirectSolver (Engine Float KeyStream))) :=
      [.edit (.addVariable none), .edit (.add ⟨x, .eq, .fixed 4, 1, true, none, none⟩),
        .edit (.add ⟨x, .eq, .fixed 6, 1, true, none, none⟩), .edit (.add ⟨x, .ge, .fixed 9, 0.5, true, none, none⟩),
        .edit .solve, .edit (.remove ⟨0⟩), .flag ⟨1⟩ false]
    let m := (Model.mk (.empty 0) (some (DirectSolver.new e false)) none).perform actions
    m.solver.bind (·.prepared) = some [⟨1⟩, ⟨2⟩] ∧ m.system.enabledIds = [⟨2⟩] ∧
      m.solve = { m with solver := some (DirectSolver.new e false) }.solve := by
  intro x e actions m
  refine ⟨by decide +kernel, by decide +kernel, ?_⟩
  exact solve_eq_fresh (.empty 0) none e rfl false actions (by simp [actions])

end Model

end SoftLinear
