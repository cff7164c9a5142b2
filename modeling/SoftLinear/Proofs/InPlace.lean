import SoftLinear.Model

/-!
# Requests in place

A caller asks for a change of the constraints of a model by a `Request`.  `Model.request` answers with the changed model or
with the reason of a refusal, and nothing can remain of a request that is refused.  A program that works in place has to
see to that itself: it writes the views of a system one after another, takes the solver out of the model while it calls it,
and puts it back; if it fails, what it has written by then stays written.  `InPlace.request` is that program, write by
write.  It does what `Model.request` says and fails without a trace (`InPlace.run_request`).
-/

namespace SoftLinear

variable {α σ β : Type}

/-- A change of the constraints that a caller asks for. -/
inductive Request (α : Type) where
  | insert (c : Constraint α)
  | erase (id : ConstraintId)
  | setEnabled (id : ConstraintId) (enabled : Bool)
  | setPenalty (id : ConstraintId) (penalty : α)
  | setRightSide (id : ConstraintId) (rightSide : RightSide α)

/-- The model that a request leads to, or the reason why it is refused. -/
def Model.request [Scalar α] [Solver α σ] (m : Model α σ) : Request α → Except (Error α) (Model α σ)
  | .insert c => (m.insert c).map (·.1)
  | .erase id => (m.erase id).map (·.1)
  | .setEnabled id enabled => m.setEnabled id enabled
  | .setPenalty id penalty => m.setPenalty id penalty
  | .setRightSide id rightSide => m.setRightSide id rightSide

abbrev InPlace (α σ : Type) := EStateM (Error α) (Model α σ)

namespace InPlace

/-- Writes to the system. -/
def write (f : System α → System α) : InPlace α σ Unit := modify fun m => { m with system := f m.system }

/-- Calls the solver, if one is installed.  Meanwhile none is. -/
def callSolver (call : σ → System α → σ) : InPlace α σ Unit := do
  match (← get).solver with
  | some x =>
    modify fun m => { m with solver := none }
    let x := call x (← get).system
    modify fun m => { m with solver := some x }
  | none => return

/-- The constraint that an identifier names. -/
def require (id : ConstraintId) : InPlace α σ (Constraint α) := do
  match (← get).system.constraint? id with
  | some c => return c
  | none => throw (.unknownConstraint id)

def setRightSide (id : ConstraintId) (rightSide : RightSide α) : InPlace α σ Unit := do
  let _ ← require id
  write (·.modify id fun c => { c with rightSide := rightSide })

variable [Scalar α]

def setPenalty (id : ConstraintId) (penalty : α) : InPlace α σ Unit := do
  let _ ← require id
  unless isPenalty penalty do throw (.invalidPenalty penalty)
  write (·.modify id fun c => { c with penalty := penalty })

variable [Solver α σ]

def setEnabled (id : ConstraintId) (enabled : Bool) : InPlace α σ Unit := do
  let _ ← require id
  write (·.modify id fun c => { c with enabled := enabled })
  callSolver fun x s => Solver.enabled x s id enabled

def insert (c : Constraint α) : InPlace α σ ConstraintId := do
  if let some v := (← get).system.foreign? c then throw (.foreignVariable v)
  unless isPenalty c.penalty do throw (.invalidPenalty c.penalty)
  let id : ConstraintId := ⟨(← get).system.constraints.size⟩
  forM c.terms fun t => write (·.attach id t.var)
  write fun s => { s with constraints := s.constraints.push (some c) }
  write fun s => { s with order := s.order ++ [id] }
  callSolver fun x s => Solver.added x s id
  return id

/-- Removes a constraint.  Its place is emptied before it is known whether a constraint was there. -/
def erase (id : ConstraintId) : InPlace α σ (Constraint α) := do
  let taken := (← get).system.constraint? id
  write fun s => { s with constraints := s.constraints.setIfInBounds id.index none }
  match taken with
  | none => throw (.unknownConstraint id)
  | some c =>
    write fun s => { s with order := id.erase s.order }
    forM c.terms fun t => write (·.detach id t.var)
    callSolver fun x s => Solver.removed x s id c
    return c

/-- Does what a caller asks for. -/
def request : Request α → InPlace α σ Unit
  | .insert c => do
    let _ ← insert c
  | .erase id => do
    let _ ← erase id
  | .setEnabled id enabled => setEnabled id enabled
  | .setPenalty id penalty => setPenalty id penalty
  | .setRightSide id rightSide => setRightSide id rightSide

end InPlace

/-- How a program ends that carries an answer out as a whole or not at all. -/
def Model.allOrNothing (m : Model α σ) : Except (Error α) (Model α σ × β) → EStateM.Result (Error α) (Model α σ) β
  | .ok (m', b) => .ok b m'
  | .error e => .error e m

namespace InPlace

/-! ## What the parts of the program do -/

section Parts

variable (m : Model α σ)

@[simp] theorem run_write (f : System α → System α) : (write f).run m = .ok () { m with system := f m.system } := rfl

@[simp] theorem run_throw (e : Error α) : (throw e : InPlace α σ β).run m = .error e m := rfl

@[simp] theorem run_callSolver (call : σ → System α → σ) :
    (callSolver call).run m = .ok () { m with solver := m.solver.map (call · m.system) } := by
  obtain ⟨s, x, status⟩ := m
  cases x <;> rfl

@[simp] theorem run_forM_write (f : β → System α → System α) (l : List β) :
    (forM l fun b => write (f b) : InPlace α σ Unit).run m =
      .ok () { m with system := l.foldl (fun s b => f b s) m.system } := by
  induction l generalizing m with
  | nil => rfl
  | cons b l ih => simp [ih]

theorem run_require (id : ConstraintId) : (require id).run m = m.allOrNothing ((m.system.require id).map (m, ·)) := by
  cases h : m.system.constraint? id <;> simp [require, System.require, h, Model.allOrNothing, Except.map]

end Parts

/-- Where there is no constraint, the place can be emptied without a trace. -/
theorem emptied_eq {s : System α} {id : ConstraintId} (h : s.constraint? id = none) :
    { s with constraints := s.constraints.setIfInBounds id.index none } = s := by
  have hplace : s.constraints.setIfInBounds id.index none = s.constraints := by
    apply Array.ext_getElem?
    intro i
    rw [Array.getElem?_setIfInBounds]
    split
    · rename_i hi
      subst hi
      split
      · rename_i hlt
        unfold System.constraint? at h
        rw [Array.getElem?_eq_getElem hlt] at h ⊢
        exact congrArg some h.symm
      · rename_i hge
        exact (Array.getElem?_eq_none (Nat.le_of_not_lt hge)).symm
    · rfl
  rw [hplace]

/-! ## What the program does -/

section Programs

variable [Scalar α] [Solver α σ] (m : Model α σ)

omit [Scalar α] [Solver α σ] in
theorem run_setRightSide (id : ConstraintId) (rightSide : RightSide α) :
    (setRightSide id rightSide).run m = m.allOrNothing ((m.setRightSide id rightSide).map (·, ())) := by
  simp only [setRightSide, EStateM.run_bind, run_require, Model.setRightSide, System.setRightSide]
  cases m.system.require id <;> rfl

omit [Solver α σ] in
theorem run_setPenalty (id : ConstraintId) (penalty : α) :
    (setPenalty id penalty).run m = m.allOrNothing ((m.setPenalty id penalty).map (·, ())) := by
  simp only [setPenalty, EStateM.run_bind, run_require, Model.setPenalty, System.setPenalty]
  cases m.system.require id with
  | error e => rfl
  | ok c => cases isPenalty penalty <;> rfl

omit [Scalar α] in
theorem run_setEnabled (id : ConstraintId) (enabled : Bool) :
    (setEnabled id enabled).run m = m.allOrNothing ((m.setEnabled id enabled).map (·, ())) := by
  simp only [setEnabled, EStateM.run_bind, run_require, run_write, run_callSolver, Model.setEnabled, System.setEnabled]
  cases m.system.require id <;> rfl

theorem run_insert (c : Constraint α) : (insert c).run m = m.allOrNothing (m.insert c) := by
  cases hf : m.system.foreign? c with
  | some v =>
    simp only [insert, EStateM.run_bind, EStateM.run_get, hf, Model.insert, System.insert]
    rfl
  | none =>
    cases hp : isPenalty c.penalty with
    | false =>
      simp only [insert, EStateM.run_bind, EStateM.run_get, hf, hp, Model.insert, System.insert]
      rfl
    | true =>
      simp only [insert, EStateM.run_bind, EStateM.run_get, hf, hp, if_true, run_forM_write, run_write, run_callSolver,
        Model.insert, System.insert]
      rfl

omit [Scalar α] in
theorem run_erase (id : ConstraintId) : (erase id).run m = m.allOrNothing (m.erase id) := by
  cases h : m.system.constraint? id with
  | none =>
    simp only [erase, EStateM.run_bind, EStateM.run_get, run_write, h, emptied_eq h, Model.erase, System.erase,
      System.require]
    rfl
  | some c =>
    simp only [erase, EStateM.run_bind, EStateM.run_get, run_write, h, run_forM_write, run_callSolver, Model.erase,
      System.erase, System.require]
    rfl

/-- **A request in place is carried out as a whole or leaves the model as it was.** -/
theorem run_request (r : Request α) : (request r).run m = m.allOrNothing ((m.request r).map (·, ())) := by
  cases r with
  | insert c =>
    simp only [request, EStateM.run_bind, run_insert, Model.request]
    cases m.insert c <;> rfl
  | erase id =>
    simp only [request, EStateM.run_bind, run_erase, Model.request]
    cases m.erase id <;> rfl
  | setEnabled id enabled => exact run_setEnabled m id enabled
  | setPenalty id penalty => exact run_setPenalty m id penalty
  | setRightSide id rightSide => exact run_setRightSide m id rightSide

variable {m}

theorem run_request_ok {r : Request α} {m' : Model α σ} (h : m.request r = .ok m') : (request r).run m = .ok () m' := by
  rw [run_request, h]
  rfl

theorem run_request_error {r : Request α} {e : Error α} (h : m.request r = .error e) :
    (request r).run m = .error e m := by
  rw [run_request, h]
  rfl

end Programs

end InPlace

end SoftLinear
