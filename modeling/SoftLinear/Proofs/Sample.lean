import SoftLinear.Proofs.Arena
import SoftLinear.Samples.Conflict

/-!
# What building a sample makes

A sample is built by creating variables and adding constraints, one after the other.  `System.Laid` says what there is
after some variables and constraints: nobody has set the variables, and the constraints have their places in the order in
which they were added.  Each step of the building keeps it up, so it holds of what a whole sample makes; for the sample
with an isolated conflict see `ConflictSample.isolated_laid`.
-/

namespace SoftLinear

/-! ## Steps that succeed -/

namespace Building

variable {α σ β δ : Type} {m m' : Model α σ}

theorem bind_ok {x : Building α σ β} {k : β → Building α σ δ} {b : β} (h : x m = (.ok b, m')) :
    (x >>= k) m = k b m' := by
  simp only [bind, ExceptT.bind, ExceptT.mk, StateT.bind, h, ExceptT.bindCont]

/-- Steps along a list, each of which succeeds where an invariant holds of those before it, succeed together. -/
theorem mapM_ok (f : β → Building α σ δ) (g : β → δ) (xs : List β) {P : List β → Model α σ → Prop}
    (hstep : ∀ done x rest m, xs = done ++ x :: rest → P done m → ∃ m', f x m = (.ok (g x), m') ∧ P (done ++ [x]) m')
    (h : P [] m) : ∃ m', xs.mapM f m = (.ok (xs.map g), m') ∧ P xs m' := by
  have key : ∀ rest done m, xs = done ++ rest → P done m → ∃ m', rest.mapM f m = (.ok (rest.map g), m') ∧ P xs m' := by
    intro rest
    induction rest with
    | nil =>
      intro done m hsplit hm
      rw [List.append_nil] at hsplit
      exact ⟨m, rfl, hsplit ▸ hm⟩
    | cons x rest ih =>
      intro done m hsplit hm
      obtain ⟨m₁, hx, hm₁⟩ := hstep done x rest m hsplit hm
      obtain ⟨m₂, hrest, hm₂⟩ := ih (done ++ [x]) m₁ (by simp [hsplit]) hm₁
      refine ⟨m₂, ?_, hm₂⟩
      rw [List.mapM_cons, bind_ok hx, bind_ok hrest]
      rfl
  exact key xs [] m rfl h

theorem constraint_ok [Scalar α] [Solver α σ] {c : Constraint α} {s : System α} {id : ConstraintId}
    (h : m.system.insert c = .ok (s, id)) (hadded : ∀ (d : σ) (s : System α) id, Solver.added d s id = d) :
    constraint c m = (.ok id, { m with system := s }) := by
  unfold constraint Model.insert
  simp only [h, bind, Except.bind, pure, Except.pure, hadded, Option.map_id']

end Building

variable {α : Type} [Scalar α]

/-! ## What there is after some steps -/

namespace System

variable {s : System α} {i n : Nat} {t : α} {cs : List (Constraint α)}

/-- A system with variables that nobody has set, and with constraints in their places. -/
structure Laid (i : Nat) (t : α) (n : Nat) (cs : List (Constraint α)) (s : System α) : Prop where
  wellFormed : s.WellFormed
  linked : s.Linked
  id : s.id = i
  tolerance : s.tolerance = t
  values : s.values = Array.replicate n Scalar.unset
  constraints : s.constraints = (cs.map some).toArray
  order : s.order = (List.range cs.length).map ConstraintId.mk

theorem Laid.size (h : Laid i t n cs s) : s.slots.size = n := by
  have hsize := congrArg Array.size h.values
  simpa [System.values] using hsize

theorem Laid.constraint? (h : Laid i t n cs s) (j : Nat) : s.constraint? ⟨j⟩ = cs[j]? := by
  unfold System.constraint?
  rw [h.constraints]
  cases hj : cs[j]? <;> simp [hj]

theorem Laid.owns (h : Laid i t n cs s) {j : Nat} (hj : j < n) : s.owns ⟨i, j⟩ = true := by
  simp [System.owns, h.id, h.size, hj]

theorem laid_empty [Scalar.Ordered α] (i : Nat) (ht : isTolerance t = true) : Laid i t 0 [] ((empty i).setTolerance t) where
  wellFormed := (Revised.setTolerance (e := .setTolerance t) _ t).wellFormed (empty_wellFormed i)
  linked := by
    rw [setTolerance, if_pos ht]
    exact (empty_linked i).of_same (fun _ => rfl) rfl
  id := by rw [setTolerance, if_pos ht]; rfl
  tolerance := by rw [setTolerance, if_pos ht]
  values := by rw [setTolerance, if_pos ht]; simp [System.values, empty]
  constraints := by rw [setTolerance, if_pos ht]; rfl
  order := by rw [setTolerance, if_pos ht]; rfl

theorem Laid.addVariable (h : Laid i t n cs s) (name : Option String) :
    (s.addVariable name).2 = ⟨i, n⟩ ∧ Laid i t (n + 1) cs (s.addVariable name).1 := by
  refine ⟨by simp [System.addVariable, h.id, h.size], (Revised.addVariable s name).wellFormed h.wellFormed,
    (Revised.addVariable s name).sameTerms.linked h.linked, h.id, h.tolerance, ?_, h.constraints, h.order⟩
  have hvalues : (s.addVariable name).1.values = s.values.push Scalar.unset := by
    simp [System.addVariable, System.values]
  rw [hvalues, h.values, Array.replicate_succ]

omit [Scalar α] in
theorem values_attach (s : System α) (id : ConstraintId) (v : Variable) : (s.attach id v).values = s.values := by
  unfold attach System.values
  split
  · rename_i slot hslot
    rw [Array.map_setIfInBounds]
    apply Array.ext_getElem?
    intro j
    rw [Array.getElem?_setIfInBounds]
    split
    · rename_i hj
      subst hj
      obtain ⟨hv, rfl⟩ := Array.getElem?_eq_some_iff.mp hslot
      simp [hv]
    · rfl
  · rfl

omit [Scalar α] in
theorem values_foldl_attach (s : System α) (id : ConstraintId) (ts : List (Term α)) :
    (ts.foldl (fun s t => s.attach id t.var) s).values = s.values := by
  induction ts generalizing s with
  | nil => rfl
  | cons t ts ih => rw [List.foldl_cons, ih, values_attach]

theorem Laid.insert (h : Laid i t n cs s) {c : Constraint α} (hdistinct : (c.terms.map (·.var)).Nodup)
    (hvars : ∀ x ∈ c.terms, ∃ j < n, x.var = ⟨i, j⟩) (hpenalty : isPenalty c.penalty = true) :
    ∃ s', s.insert c = .ok (s', ⟨cs.length⟩) ∧ Laid i t n (cs ++ [c]) s' := by
  have hforeign : s.foreign? c = none := by
    simp only [foreign?, List.find?_eq_none, List.mem_map]
    rintro v ⟨x, hx, rfl⟩
    obtain ⟨j, hj, hv⟩ := hvars x hx
    simp [hv, h.owns hj]
  have hplaces := foldl_samePlaces (attach_samePlaces ⟨s.constraints.size⟩) c.terms s
  have hsize : s.constraints.size = cs.length := by simp [h.constraints]
  obtain ⟨s', hs', hvalues, hconstraints⟩ : ∃ s', s.insert c = .ok (s', ⟨s.constraints.size⟩) ∧ s'.values = s.values ∧
      s'.constraints = s.constraints.push (some c) := by
    unfold System.insert
    simp only [hforeign, hpenalty, if_true]
    exact ⟨_, rfl, values_foldl_attach s _ c.terms, congrArg (·.push (some c)) hplaces.constraints⟩
  have hinserted := inserted_of_insert hs'
  rw [hsize] at hs'
  refine ⟨s', hs', h.wellFormed.inserted hdistinct hinserted, linked_insert h.linked hs', hinserted.owner.trans h.id,
    hinserted.tolerance.trans h.tolerance, hvalues.trans h.values, ?_, ?_⟩
  · rw [hconstraints, h.constraints]
    simp
  · rw [hinserted.order, h.order, hsize]
    simp [List.range_succ]

end System

/-! ## Terms that are merged already -/

namespace Term

theorem absorb_of_not_mem {t : Term α} {ts : List (Term α)} (h : t.var ∉ ts.map (·.var)) : t.absorb ts = ts ++ [t] := by
  induction ts with
  | nil => rfl
  | cons s ts ih =>
    simp only [List.map_cons, List.mem_cons, not_or] at h
    rw [absorb, if_neg (Ne.symm h.1), ih h.2]
    rfl

theorem merge_of_nodup {ts : List (Term α)} (h : (ts.map (·.var)).Nodup) : merge ts = ts := by
  have key : ∀ rest done : List (Term α), ((done ++ rest).map (·.var)).Nodup →
      rest.foldl (fun acc t => t.absorb acc) done = done ++ rest := by
    intro rest
    induction rest with
    | nil => simp
    | cons t rest ih =>
      intro done hn
      have hnew : t.var ∉ done.map (·.var) := by
        rw [List.map_append, List.nodup_append'] at hn
        exact fun hmem => hn.2.2 hmem List.mem_cons_self
      rw [List.foldl_cons, absorb_of_not_mem hnew, ih (done ++ [t]) (by simpa using hn), List.append_assoc]
      rfl
  exact key ts [] h

end Term

/-! ## The sample with an isolated conflict -/

namespace ConflictSample

variable {i n k j : Nat}

/-- The identifiers of the constraints of the sample. -/
def places (n : Nat) : List ConstraintId := (List.range n).map ConstraintId.mk

@[simp] theorem mem_places {id : ConstraintId} : id ∈ places n ↔ id.index < n := by
  cases id
  simp [places]

@[simp] theorem length_places (n : Nat) : (places n).length = n := by simp [places]

theorem nodup_places (n : Nat) : (places n).Nodup := List.nodup_range.map fun _ _ => ConstraintId.mk.inj

/-- The constraint at a place of the sample. -/
def row (i n k j : Nat) : Constraint α := isolatedAt ((List.range n).map (Variable.mk i)) k (⟨i, j⟩, j)

theorem row_free (h : j ≠ k) : (row i n k j : Constraint α) =
    ⟨[⟨1, ⟨i, j⟩⟩], .eq, .fixed (((10 : Nat) : α) * (j : α)), hardPenalty, true, none, none⟩ := by
  unfold row isolatedAt
  rw [if_neg h]
  rfl

theorem row_conflict (h : k ≤ n) : (row i n k k : Constraint α) =
    ⟨(List.range k).map fun l => ⟨1, ⟨i, l⟩⟩, .eq, .fixed (0 - 1), hardPenalty, true, none, none⟩ := by
  have hterms : (((List.range n).map (Variable.mk i)).take k).map (fun v => (⟨1, v⟩ : Term α)) =
      (List.range k).map fun l => ⟨1, ⟨i, l⟩⟩ := by
    rw [← List.map_take, List.take_range, min_eq_left h, List.map_map]
    rfl
  have hnodup : (((List.range k).map fun l => (⟨1, ⟨i, l⟩⟩ : Term α)).map (·.var)).Nodup := by
    rw [List.map_map]
    exact List.nodup_range.map fun a b hab => (Variable.mk.inj hab).2
  unfold row isolatedAt
  rw [if_pos rfl, Constraint.build, hterms, Term.merge_of_nodup hnodup]

theorem row_vars (hk : k < n) (hj : j < n) : ∀ x ∈ (row i n k j : Constraint α).terms, ∃ l < n, x.var = ⟨i, l⟩ := by
  by_cases h : j = k
  · subst h
    rw [row_conflict hk.le]
    intro x hx
    obtain ⟨l, hl, rfl⟩ := List.mem_map.mp hx
    exact ⟨l, (List.mem_range.mp hl).trans hk, rfl⟩
  · rw [row_free h]
    intro x hx
    obtain rfl := List.mem_singleton.mp hx
    exact ⟨j, hj, rfl⟩

theorem not_mem_row (hk : k ≤ n) (j : Nat) : ⟨i, k⟩ ∉ (row i n k j : Constraint α).terms.map (·.var) := by
  by_cases h : j = k
  · subst h
    rw [row_conflict hk]
    simp
  · rw [row_free h]
    simpa using Ne.symm h

theorem row_penalty (i n k j : Nat) : (row i n k j : Constraint α).penalty = hardPenalty := by
  unfold row isolatedAt
  split <;> rfl

theorem row_enabled (i n k j : Nat) : (row i n k j : Constraint α).enabled = true := by
  unfold row isolatedAt
  split <;> rfl

theorem row_distinct (i n k j : Nat) : ((row i n k j : Constraint α).terms.map (·.var)).Nodup := by
  unfold row isolatedAt
  split <;> exact Term.nodup_merge _

variable {σ : Type} [Solver α σ] {m : Model α σ} {t : α}

omit [Solver α σ] in
theorem variables_laid (hm : m.system.Laid i t 0 []) (n : Nat) :
    ∃ m', (List.range n).mapM (fun j => (.variableNamed ("x" ++ toString j) : Building α σ Variable)) m =
      (.ok ((List.range n).map (Variable.mk i)), m') ∧ ∃ s, m' = { m with system := s } ∧ s.Laid i t n [] := by
  have hrun := Building.mapM_ok (fun j => (.variableNamed ("x" ++ toString j) : Building α σ Variable)) (Variable.mk i)
    (List.range n) (P := fun done m' => ∃ s, m' = { m with system := s } ∧ s.Laid i t done.length []) ?_
    ⟨m.system, rfl, hm⟩
  · rwa [List.length_range] at hrun
  · rintro done j rest _ hsplit ⟨s, rfl, hs⟩
    obtain ⟨hv, hs'⟩ := hs.addVariable (some ("x" ++ toString j))
    have hj : done.length = j := by
      have hget : (List.range n)[done.length]? = some j := by simp [hsplit]
      exact (List.getElem?_eq_some_iff.mp hget).2 ▸ (List.getElem_range _).symm
    refine ⟨_, Prod.ext (congrArg Except.ok (hv.trans (by rw [hj]))) rfl, _, rfl, ?_⟩
    rw [List.length_append, List.length_singleton]
    exact hs'

theorem rows_laid (hm : m.system.Laid i t n []) (hadded : ∀ (d : σ) (s : System α) id, Solver.added d s id = d)
    (hone : isPenalty (hardPenalty : α) = true) (hkn : k < n) :
    ∃ m', ((List.range n).map (Variable.mk i)).zipIdx.mapM
        (fun x => (.constraint (isolatedAt ((List.range n).map (Variable.mk i)) k x) : Building α σ ConstraintId)) m =
      (.ok (places n), m') ∧
        ∃ s, m' = { m with system := s } ∧ s.Laid i t n ((List.range n).map (row i n k)) := by
  have hplaces : ((List.range n).map (Variable.mk i)).zipIdx = (List.range n).map fun j => (⟨i, j⟩, j) := by
    apply List.ext_getElem
    · simp
    · simp
  rw [hplaces]
  have hrun := Building.mapM_ok
    (fun x => (.constraint (isolatedAt ((List.range n).map (Variable.mk i)) k x) : Building α σ ConstraintId))
    (fun x => ⟨x.2⟩) ((List.range n).map fun j => (⟨i, j⟩, j)) (P := fun done m' => ∃ s, m' = { m with system := s } ∧
      s.Laid i t n (done.map (isolatedAt ((List.range n).map (Variable.mk i)) k))) ?_ ⟨m.system, rfl, hm⟩
  · rw [List.map_map, List.map_map] at hrun
    exact hrun
  · rintro done x rest _ hsplit ⟨s, rfl, hs⟩
    -- the next constraint is that of the place behind those added so far
    obtain ⟨hlt, rfl⟩ : done.length < n ∧ x = (⟨i, done.length⟩, done.length) := by
      have hget : ((List.range n).map fun j => (Variable.mk i j, j))[done.length]? = some x := by
        rw [hsplit]
        simp
      obtain ⟨hlt, hx⟩ := List.getElem?_eq_some_iff.mp hget
      exact ⟨by simpa using hlt, by simpa using hx.symm⟩
    obtain ⟨s', hinsert, hs'⟩ := hs.insert (row_distinct i n k done.length) (row_vars hkn hlt)
      (by rw [row_penalty, hone])
    rw [List.length_map] at hinsert
    refine ⟨{ m with system := s' }, Building.constraint_ok hinsert hadded, s', rfl, ?_⟩
    rw [List.map_append]
    exact hs'

/-- **What the sample with an isolated conflict makes**, in a model whose solver does not mind that constraints are added:
a variable and a constraint for each place. -/
theorem isolated_laid (hm : m.system.Laid i t 0 []) (hadded : ∀ (d : σ) (s : System α) id, Solver.added d s id = d)
    (hone : isPenalty (hardPenalty : α) = true) (hk : 0 < k) (hkn : k < n) :
    ∃ s, isolated n k m = (.ok ⟨(List.range n).map (Variable.mk i), places n, [⟨k⟩]⟩,
        { m with system := s }) ∧ s.Laid i t n ((List.range n).map (row i n k)) := by
  obtain ⟨m₁, hvars, s₁, rfl, hs₁⟩ := variables_laid hm n
  obtain ⟨m₂, hrows, s₂, rfl, hs₂⟩ := rows_laid (m := { m with system := s₁ }) hs₁ hadded hone hkn
  have hmark : ((places n).drop k).take 1 = [⟨k⟩] := by
    rw [places, ← List.map_drop, ← List.map_take, List.drop_eq_getElem_cons (by simpa using hkn)]
    simp
  refine ⟨s₂, ?_, hs₂⟩
  unfold isolated
  rw [if_neg (by omega), Building.bind_ok hvars, Building.bind_ok hrows, hmark]
  rfl

end ConflictSample

end SoftLinear
