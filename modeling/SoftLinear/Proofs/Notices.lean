import SoftLinear.Proofs.InPlace
import SoftLinear.Proofs.Noninterference

/-!
# Requests and notices

A request is refused for a reason that the system alone decides, or it is carried out, and then the solver may be given a
`Notice` of it.  `System.handle` says both about the system alone, and `Model.request_eq` that a model does nothing else: it
takes over the system and lets the solver have the notice.

How often a solver is called cannot be read off its state.  So the calls are counted by a solver that writes them down
(`Listener`): the model treats it like any other solver, and what it has written down after a request is the list of the
calls.
-/

namespace SoftLinear

variable {α σ : Type}

/-! ## Requests -/

/-- The constraint that a request is about, if it is there already. -/
def Request.target? : Request α → Option ConstraintId
  | insert _ => none
  | erase id | setEnabled id _ | setPenalty id _ | setRightSide id _ => some id

/-- Whether solvers hear of a request. -/
def Request.isTold : Request α → Bool
  | setPenalty .. | setRightSide .. => false
  | _ => true

/-! ## Notices -/

/-- A call by which a solver hears of a request, with the system that it sees. -/
inductive Notice (α : Type) where
  | added (seen : System α) (id : ConstraintId)
  | enabled (seen : System α) (id : ConstraintId) (flag : Bool)
  | removed (seen : System α) (id : ConstraintId) (c : Constraint α)

namespace Notice

/-- The system that the solver sees. -/
def seen : Notice α → System α
  | added s _ | enabled s _ _ | removed s _ _ => s

/-- The solver after the call. -/
def tell [Solver α σ] (x : σ) : Notice α → σ
  | added s id => Solver.added x s id
  | enabled s id flag => Solver.enabled x s id flag
  | removed s id c => Solver.removed x s id c

/-- A notice is the one of a request to a system: it names what was asked for, and shows it done. -/
def Matches (s : System α) : Request α → Notice α → Prop
  | .insert c, added t id => id = ⟨s.constraints.size⟩ ∧ t.order = s.order ++ [id] ∧ t.constraint? id = some c
  | .erase id, removed t id' c => id' = id ∧ s.constraint? id = some c ∧ t.order = id.erase s.order ∧ t.constraint? id = none
  | .setEnabled id b, enabled t id' b' => id' = id ∧ b' = b ∧ t.flag? id = some b
  | _, _ => False

end Notice

/-- A solver that writes down how it is called. -/
structure Listener (α σ : Type) where
  solver : σ
  heard : List (Notice α)

instance [Solver α σ] : Solver α (Listener α σ) where
  solve l s := (Solver.solve l.solver s).map fun x => { l with solver := x }
  name l := Solver.name l.solver
  added l s id := ⟨Solver.added l.solver s id, l.heard ++ [.added s id]⟩
  enabled l s id flag := ⟨Solver.enabled l.solver s id flag, l.heard ++ [.enabled s id flag]⟩
  removed l s id c := ⟨Solver.removed l.solver s id c, l.heard ++ [.removed s id c]⟩

theorem Listener.tell_eq [Solver α σ] (l : Listener α σ) (n : Notice α) :
    n.tell l = ⟨n.tell l.solver, l.heard ++ [n]⟩ := by
  cases n <;> rfl

/-- The same model with a solver that writes down how it is called from now on. -/
def Model.listen (m : Model α σ) : Model α (Listener α σ) :=
  { m with solver := m.solver.map fun x => ⟨x, []⟩ }

/-! ## What a system does with a request -/

variable [Scalar α]

/-- The system that a request leads to and the notice that goes out, or the reason why it is refused. -/
def System.handle (s : System α) : Request α → Except (Error α) (System α × Option (Notice α))
  | .insert c => (s.insert c).map fun x => (x.1, some (.added x.1 x.2))
  | .erase id => (s.erase id).map fun x => (x.1, some (.removed x.1 id x.2))
  | .setEnabled id flag => (s.setEnabled id flag).map fun t => (t, some (.enabled t id flag))
  | .setPenalty id penalty => (s.setPenalty id penalty).map fun t => (t, none)
  | .setRightSide id rightSide => (s.setRightSide id rightSide).map fun t => (t, none)

/-- **A request is handled by the system**, and the solver is given the notice. -/
theorem Model.request_eq [Solver α σ] (m : Model α σ) (r : Request α) :
    m.request r = (m.system.handle r).map fun x =>
      { m with system := x.1, solver := m.solver.map fun solver => x.2.elim solver (·.tell solver) } := by
  cases r with
  | insert c =>
    simp only [request, Model.insert, System.handle]
    cases m.system.insert c <;> rfl
  | erase id =>
    simp only [request, Model.erase, System.handle]
    cases m.system.erase id <;> rfl
  | setEnabled id flag =>
    simp only [request, Model.setEnabled, System.handle]
    cases m.system.setEnabled id flag <;> rfl
  | setPenalty id penalty =>
    simp only [request, Model.setPenalty, System.handle]
    cases m.system.setPenalty id penalty with
    | error e => rfl
    | ok t => simp [Except.map, bind, Except.bind, pure, Except.pure]
  | setRightSide id rightSide =>
    simp only [request, Model.setRightSide, System.handle]
    cases m.system.setRightSide id rightSide with
    | error e => rfl
    | ok t => simp [Except.map, bind, Except.bind, pure, Except.pure]

/-- A penalty that may be given to a constraint. -/
def IsPenalty (p : α) : Prop := Scalar.isFinite p = true ∧ 0 < p ∧ p ≤ 1

theorem isPenalty_iff {p : α} : isPenalty p = true ↔ IsPenalty p := by
  simp only [isPenalty, Bool.and_eq_true, decide_eq_true_eq, and_assoc]
  exact Iff.rfl

namespace System

variable {s t : System α}

/-- The notice that goes out is that of the request, and shows the system that it leads to. -/
theorem handle_notice {r : Request α} {told : Option (Notice α)} (h : s.handle r = .ok (t, told)) :
    told.isSome = r.isTold ∧ ∀ n ∈ told, n.Matches s r ∧ n.seen = t := by
  cases r with
  | insert c =>
    cases hi : s.insert c with
    | error e => simp [handle, hi, Except.map] at h
    | ok x =>
      simp only [handle, hi, Except.map, Except.ok.injEq, Prod.mk.injEq] at h
      obtain ⟨rfl, rfl⟩ := h
      have hinserted := inserted_of_insert hi
      refine ⟨rfl, ?_⟩
      rintro n ⟨⟩
      exact ⟨⟨hinserted.id_eq, hinserted.order, by rw [hinserted.constraint, if_pos rfl]⟩, rfl⟩
  | erase id =>
    cases he : s.erase id with
    | error e => simp [handle, he, Except.map] at h
    | ok x =>
      simp only [handle, he, Except.map, Except.ok.injEq, Prod.mk.injEq] at h
      obtain ⟨rfl, rfl⟩ := h
      have herased := erased_of_erase he
      refine ⟨rfl, ?_⟩
      rintro n ⟨⟩
      exact ⟨⟨rfl, constraint?_of_erase he, herased.order, by rw [herased.constraint, if_pos rfl]⟩, rfl⟩
  | setEnabled id flag =>
    cases hc : s.constraint? id with
    | none => simp [handle, setEnabled, require, hc, bind, Except.bind, Except.map] at h
    | some c =>
      simp only [handle, setEnabled, require, hc, bind, Except.bind, pure, Except.pure, Except.map, Except.ok.injEq,
        Prod.mk.injEq] at h
      obtain ⟨rfl, rfl⟩ := h
      refine ⟨rfl, ?_⟩
      rintro n ⟨⟩
      exact ⟨⟨rfl, rfl, by rw [flag?_modify, if_pos rfl, hc, Option.map_some]⟩, rfl⟩
  | setPenalty id penalty =>
    -- new penalties and right sides go out without a notice
    cases hp : s.setPenalty id penalty with
    | error e => simp [handle, hp, Except.map] at h
    | ok t' =>
      simp only [handle, hp, Except.map, Except.ok.injEq, Prod.mk.injEq] at h
      obtain ⟨rfl, rfl⟩ := h
      exact ⟨rfl, fun n hn => by cases hn⟩
  | setRightSide id rightSide =>
    cases hr : s.setRightSide id rightSide with
    | error e => simp [handle, hr, Except.map] at h
    | ok t' =>
      simp only [handle, hr, Except.map, Except.ok.injEq, Prod.mk.injEq] at h
      obtain ⟨rfl, rfl⟩ := h
      exact ⟨rfl, fun n hn => by cases hn⟩

/-! ## Why a request is refused -/

omit [Scalar α] in
theorem foreign?_eq_none {c : Constraint α} : s.foreign? c = none ↔ ∀ t ∈ c.terms, s.owns t.var = true := by
  unfold foreign?
  simp [List.find?_eq_none]

omit [Scalar α] in
theorem foreign?_of_split {c : Constraint α} {before after : List Variable} {v : Variable}
    (hsplit : c.terms.map (·.var) = before ++ v :: after) (hbefore : ∀ u ∈ before, s.owns u = true)
    (hv : s.owns v = false) : s.foreign? c = some v := by
  have hnone : before.find? (fun u => !s.owns u) = none := by
    rw [List.find?_eq_none]
    intro u hu
    simp [hbefore u hu]
  unfold foreign?
  rw [hsplit, List.find?_append, hnone, Option.none_or, List.find?_cons_of_pos (by simp [hv])]

theorem handle_insert_of_foreign {c : Constraint α} {v : Variable} (h : s.foreign? c = some v) :
    s.handle (.insert c) = .error (.foreignVariable v) := by
  simp [handle, insert, h, Except.map]

theorem handle_insert_of_penalty {c : Constraint α} (howned : ∀ t ∈ c.terms, s.owns t.var = true)
    (hp : ¬ IsPenalty c.penalty) : s.handle (.insert c) = .error (.invalidPenalty c.penalty) := by
  rw [← isPenalty_iff, Bool.not_eq_true] at hp
  simp [handle, insert, foreign?_eq_none.mpr howned, hp, Except.map]

theorem handle_insert_fails {c : Constraint α} : (∃ e, s.handle (.insert c) = .error e) ↔
    (∃ t ∈ c.terms, s.owns t.var = false) ∨ ¬ IsPenalty c.penalty := by
  by_cases howned : ∀ t ∈ c.terms, s.owns t.var = true
  · have hnone : ¬ ∃ t ∈ c.terms, s.owns t.var = false := by
      rintro ⟨t, ht, hfalse⟩
      rw [howned t ht] at hfalse
      cases hfalse
    rw [or_iff_right hnone]
    by_cases hp : IsPenalty c.penalty
    · have hok : isPenalty c.penalty = true := isPenalty_iff.mpr hp
      simp [handle, insert, foreign?_eq_none.mpr howned, hok, hp, Except.map]
    · exact ⟨fun _ => hp, fun _ => ⟨_, handle_insert_of_penalty howned hp⟩⟩
  · obtain ⟨v, hv⟩ := Option.ne_none_iff_exists'.mp (mt foreign?_eq_none.mp howned)
    exact ⟨fun _ => .inl (by simpa using howned), fun _ => ⟨_, handle_insert_of_foreign hv⟩⟩

theorem handle_of_unknown {r : Request α} {id : ConstraintId} (hr : r.target? = some id) (h : s.constraint? id = none) :
    s.handle r = .error (.unknownConstraint id) := by
  cases r with
  | insert c => cases hr
  | erase _ =>
    obtain rfl := Option.some.inj hr
    simp [handle, erase, require, h, bind, Except.bind, Except.map]
  | setEnabled _ _ =>
    obtain rfl := Option.some.inj hr
    simp [handle, setEnabled, require, h, bind, Except.bind, Except.map]
  | setPenalty _ _ =>
    obtain rfl := Option.some.inj hr
    simp [handle, setPenalty, require, h, bind, Except.bind, Except.map]
  | setRightSide _ _ =>
    obtain rfl := Option.some.inj hr
    simp [handle, setRightSide, require, h, bind, Except.bind, Except.map]

/-- A request about a constraint that is there is refused only for a penalty. -/
theorem handle_of_known {r : Request α} {id : ConstraintId} {c : Constraint α} (hr : r.target? = some id)
    (h : s.constraint? id = some c) {e : Error α} :
    s.handle r = .error e ↔ ∃ p, r = .setPenalty id p ∧ ¬ IsPenalty p ∧ e = .invalidPenalty p := by
  cases r with
  | insert c => cases hr
  | erase _ =>
    obtain rfl := Option.some.inj hr
    simp [handle, erase, require, h, bind, Except.bind, Except.map, pure, Except.pure]
  | setEnabled _ _ =>
    obtain rfl := Option.some.inj hr
    simp [handle, setEnabled, require, h, bind, Except.bind, Except.map, pure, Except.pure]
  | setPenalty _ p =>
    obtain rfl := Option.some.inj hr
    by_cases hp : IsPenalty p
    · have hok : isPenalty p = true := isPenalty_iff.mpr hp
      simp [handle, setPenalty, require, h, hok, hp, bind, Except.bind, Except.map, pure, Except.pure]
    · have hbad : isPenalty p = false := Bool.eq_false_iff.mpr (mt isPenalty_iff.mp hp)
      simp [handle, setPenalty, require, h, hbad, hp, bind, Except.bind, Except.map, throw, throwThe,
        MonadExceptOf.throw, eq_comm]
  | setRightSide _ _ =>
    obtain rfl := Option.some.inj hr
    simp [handle, setRightSide, require, h, bind, Except.bind, Except.map, pure, Except.pure]

end System

namespace Model

section Requests

variable [Solver α σ] {m : Model α σ} {r : Request α}

theorem request_eq_error {e : Error α} : m.request r = .error e ↔ m.system.handle r = .error e := by
  rw [request_eq]
  cases m.system.handle r <;> simp [Except.map]

/-- **What a solver hears of a request that is carried out.** -/
theorem request_heard {m' : Model α σ} {x : σ} (h : m.request r = .ok m') (hx : m.solver = some x) :
    ∃ heard : List (Notice α), heard.length = (if r.isTold then 1 else 0) ∧
      (∀ n ∈ heard, n.Matches m.system r ∧ n.seen = m'.system) ∧
      m'.solver = some (heard.foldl Notice.tell x) ∧
      m.listen.request r = .ok ⟨m'.system, some ⟨heard.foldl Notice.tell x, heard⟩, m'.lastStatus⟩ := by
  have hlisten := m.listen.request_eq r
  rw [request_eq] at h
  rw [show m.listen.system = m.system from rfl] at hlisten
  cases hh : m.system.handle r with
  | error e =>
    rw [hh] at h
    cases h
  | ok y =>
    obtain ⟨t, told⟩ := y
    obtain ⟨hsome, hnotice⟩ := System.handle_notice hh
    rw [hh, Except.map, hx, Except.ok.injEq] at h
    rw [hh, Except.map] at hlisten
    subst h
    refine ⟨told.toList, ?_, ?_, ?_, ?_⟩
    · rw [← hsome]
      cases told <;> rfl
    · intro n hn
      exact hnotice n (Option.mem_toList.mp hn)
    · cases told <;> rfl
    · rw [hlisten, show m.listen.solver = some ⟨x, []⟩ by rw [listen, hx]; rfl]
      cases told with
      | none => rfl
      | some n => simp [listen, Listener.tell_eq]

end Requests

/-- **Requests are atomic, and solvers are told once.**  Take any model after any history.

* A request that is refused leaves the model and its solver as they are, also if it is carried out in place, and the solver
  hears nothing.
* A constraint is not added exactly if it names a variable of another system, the first of which is reported, or else if
  its penalty is not a finite number above zero and at most one.
* A request about a constraint is refused as unknown exactly if the constraint is not there; if it is, then only a new
  penalty can be refused, and is so exactly if it is out of range.
* Of a constraint that was added, removed, enabled or disabled the installed solver hears in exactly one call, which shows
  it the system after the change; it is still installed afterwards, in the state in which that call has left it.  It hears
  nothing of a new penalty or right side. -/
theorem request_spec [Scalar.Ordered α] [Solver α σ] [Solver.Lawful α σ] (i : Nat) (x₀ : Option σ)
    (actions : List (Action α σ)) :
    let m := (Model.new i x₀).perform actions
    let s := m.system
    (∀ r e, m.request r = .error e →
      (InPlace.request r).run m = .error e m ∧ (InPlace.request r).run m.listen = .error e m.listen) ∧
    (∀ c : Constraint α,
      ((∃ e, m.request (.insert c) = .error e) ↔ (∃ t ∈ c.terms, s.owns t.var = false) ∨ ¬ IsPenalty c.penalty) ∧
      (∀ before v after, c.terms.map (·.var) = before ++ v :: after → (∀ u ∈ before, s.owns u = true) →
        s.owns v = false → m.request (.insert c) = .error (.foreignVariable v)) ∧
      ((∀ t ∈ c.terms, s.owns t.var = true) → ¬ IsPenalty c.penalty →
        m.request (.insert c) = .error (.invalidPenalty c.penalty))) ∧
    (∀ r id, r.target? = some id →
      (m.request r = .error (.unknownConstraint id) ↔ id ∉ s.order) ∧
      (id ∈ s.order → ∀ e, m.request r = .error e ↔
        ∃ p, r = .setPenalty id p ∧ ¬ IsPenalty p ∧ e = .invalidPenalty p)) ∧
    (∀ r m' x, m.request r = .ok m' → m.solver = some x →
      ∃ heard : List (Notice α), heard.length = (if r.isTold then 1 else 0) ∧
        (∀ n ∈ heard, n.Matches s r ∧ n.seen = m'.system) ∧
        m'.solver = some (heard.foldl Notice.tell x) ∧ (InPlace.request r).run m = .ok () m' ∧
        (InPlace.request r).run m.listen =
          .ok () ⟨m'.system, some ⟨heard.foldl Notice.tell x, heard⟩, m'.lastStatus⟩) := by
  intro m s
  have hs : s.WellFormed := (perform_sound i x₀ actions).1
  refine ⟨?_, ?_, ?_, ?_⟩
  · intro r e he
    have hhandle : m.system.handle r = .error e := request_eq_error.mp he
    have hlisten : m.listen.request r = .error e := request_eq_error.mpr hhandle
    exact ⟨InPlace.run_request_error he, InPlace.run_request_error hlisten⟩
  · intro c
    simp only [request_eq_error]
    refine ⟨System.handle_insert_fails, ?_, System.handle_insert_of_penalty⟩
    intro before v after hsplit hbefore hv
    exact System.handle_insert_of_foreign (System.foreign?_of_split hsplit hbefore hv)
  · intro r id hr
    simp only [request_eq_error, hs.listed]
    cases hc : s.constraint? id with
    | none =>
      refine ⟨⟨fun _ => by simp, fun _ => System.handle_of_unknown hr hc⟩, fun h => ?_⟩
      cases h
    | some c =>
      refine ⟨⟨fun h => ?_, fun h => absurd rfl h⟩, fun _ e => System.handle_of_known hr hc⟩
      obtain ⟨p, -, -, he⟩ := (System.handle_of_known hr hc).mp h
      cases he
  · intro r m' x hr hx
    obtain ⟨heard, hlength, hmatches, hsolver, hlisten⟩ := request_heard hr hx
    exact ⟨heard, hlength, hmatches, hsolver, InPlace.run_request_ok hr, InPlace.run_request_ok hlisten⟩

/-- Over binary64: of two foreign variables and a penalty out of range, the first variable is reported; a removed constraint
is unknown, and removing it again in place writes nothing; and of the removal of the other one the resolving solver hears
once. -/
theorem request_spec_of_removal :
    let x : AnySolver (Engine Float KeyStream) := .resolving (.new .adding (.kaczmarz ⟨2, 1, 1, []⟩) false none)
    let actions : List (Action Float (AnySolver (Engine Float KeyStream))) :=
      [.edit (.addVariable none), .edit (.add ⟨[⟨1, ⟨0, 0⟩⟩], .eq, .fixed 4, 1, true, none, none⟩),
        .edit (.add ⟨[⟨1, ⟨0, 0⟩⟩], .eq, .fixed 6, 0.5, true, none, none⟩), .edit (.remove ⟨0⟩), .install x]
    let m := (Model.new 0 none).perform actions
    m.request (.insert ⟨[⟨1, ⟨0, 0⟩⟩, ⟨1, ⟨5, 0⟩⟩, ⟨1, ⟨6, 0⟩⟩], .eq, .fixed 1, 2, true, none, none⟩) =
        .error (.foreignVariable ⟨5, 0⟩) ∧
      m.request (.setPenalty ⟨0⟩ 2) = .error (.unknownConstraint ⟨0⟩) ∧
      m.request (.setPenalty ⟨1⟩ 2) = .error (.invalidPenalty 2) ∧
      (InPlace.request (.erase ⟨0⟩)).run m = .error (.unknownConstraint ⟨0⟩) m ∧
      ∃ m' n, (InPlace.request (.erase ⟨1⟩)).run m = .ok () m' ∧ n.Matches m.system (.erase ⟨1⟩) ∧ n.seen = m'.system ∧
        m'.solver = some (n.tell x) ∧
        (InPlace.request (.erase ⟨1⟩)).run m.listen = .ok () ⟨m'.system, some ⟨n.tell x, [n]⟩, m'.lastStatus⟩ := by
  intro x actions m
  obtain ⟨hrefused, hinsert, htarget, hheard⟩ := request_spec (α := Float) 0 none actions
  have hlive : (⟨1⟩ : ConstraintId) ∈ m.system.order := by decide +kernel
  have hgone : (⟨0⟩ : ConstraintId) ∉ m.system.order := by decide +kernel
  refine ⟨?_, ?_, ?_, ?_, ?_⟩
  · exact (hinsert _).2.1 [⟨0, 0⟩] ⟨5, 0⟩ [⟨6, 0⟩] rfl (by decide +kernel) (by decide +kernel)
  · exact (htarget _ ⟨0⟩ rfl).1.mpr hgone
  · refine ((htarget (.setPenalty ⟨1⟩ 2) ⟨1⟩ rfl).2 hlive _).mpr ⟨2, rfl, ?_, rfl⟩
    rw [← isPenalty_iff]
    decide +kernel
  · exact (hrefused _ _ ((htarget _ ⟨0⟩ rfl).1.mpr hgone)).1
  · cases hm : m.request (.erase ⟨1⟩) with
    | error e =>
      obtain ⟨p, hp, -⟩ := ((htarget (.erase ⟨1⟩) ⟨1⟩ rfl).2 hlive e).mp hm
      cases hp
    | ok m' =>
      obtain ⟨heard, hlength, hmatches, hsolver, hdone, hlisten⟩ := hheard (.erase ⟨1⟩) m' x hm rfl
      obtain ⟨n, rfl⟩ := List.length_eq_one_iff.mp hlength
      obtain ⟨hn, hseen⟩ := hmatches n (List.mem_singleton.mpr rfl)
      exact ⟨m', n, hdone, hn, hseen, hsolver, hlisten⟩

end Model

end SoftLinear
