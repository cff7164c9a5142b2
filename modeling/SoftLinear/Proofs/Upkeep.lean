import SoftLinear.Proofs.Coverage
import SoftLinear.Proofs.Handles

/-!
# Entries that are kept up

A selector chooses entries once; afterwards they are patched, call by call, as constraints are removed.  Between two calls
the system may be edited and solved, and a constraint may be gone from the system before its entries are.

* `PivotEntry.Maintained` are the entries that a selection can lead to in this way;
* terms never change and an emptied place stays empty, so what is left of the considered constraints has the terms that
  it had when the selection was made (`Model.act_remains`);
* one invariant relates the entries to the system of the selection and to the system as it is now (`PivotEntry.Upheld`):
  the first says which constraints and variables they may name, the second which variables have to have an entry.

The limit of a selection shortens the list and does nothing else (`Selector.select_considered`).
-/

namespace SoftLinear

variable {α γ : Type} [Scalar α]

/-! ## Limits -/

section Limits

variable {s : System α} {ids : List ConstraintId}

omit [Scalar α] in
theorem considered_names (s : System α) (ids : List ConstraintId) (limit : Option Nat) :
    considered s ((considered s ids limit).map (·.1)) none = considered s ids limit := by
  have hnames : ∀ list : List (ConstraintId × Constraint α), (∀ x ∈ list, s.constraint? x.1 = some x.2 ∧
      x.2.enabled = true) → s.live (list.map (·.1)) = list := by
    intro list
    induction list with
    | nil => exact fun _ => rfl
    | cons x list ih =>
      intro hlist
      obtain ⟨⟨hx, hon⟩, hrest⟩ := List.forall_mem_cons.mp hlist
      rw [List.map_cons, System.live_cons, ih hrest, hx]
      simp [hon]
  refine hnames _ fun x hx => ?_
  have hlive : x ∈ s.live ids := by
    unfold considered at hx
    split at hx
    · exact List.mem_of_mem_take hx
    · exact hx
  exact (System.mem_live.mp hlive).2

/-- A selection with a limit is one without, of the constraints that the limit leaves. -/
theorem Selector.select_considered [Generator γ] (selector : Selector γ) (s : System α) (ids : List ConstraintId)
    (vs : List Variable) (limit : Option Nat) :
    selector.select s ids vs limit = selector.select s ((considered s ids limit).map (·.1)) vs none := by
  cases selector with
  | deterministic => simp only [select, Deterministic.select, considered_names]
  | twoPhase g distance => simp only [select, TwoPhase.select, considered_names]
  | uniform g retries => simp only [select, Uniform.select, considered_names]

omit [Scalar α] in
theorem mem_considered {limit : Option Nat} {x : ConstraintId × Constraint α} (hx : x ∈ considered s ids limit) :
    s.constraint? x.1 = some x.2 ∧ x.2.enabled = true := by
  rw [← considered_names] at hx
  exact (System.mem_live.mp hx).2

omit [Scalar α] in
theorem considered_sublist (s : System α) (ids : List ConstraintId) (limit : Option Nat) :
    ((considered s ids limit).map (·.1)).Sublist ids := by
  have hlive : ((s.live ids).map (·.1)).Sublist ids := by
    show (s.liveIds ids).Sublist ids
    rw [System.liveIds_eq_filter]
    exact List.filter_sublist
  unfold considered
  split
  · rw [List.map_take]
    exact (List.take_sublist _ _).trans hlive
  · exact hlive

omit [Scalar α] in
theorem nodup_considered (hn : ids.Nodup) (limit : Option Nat) : ((considered s ids limit).map (·.1)).Nodup :=
  hn.sublist (considered_sublist s ids limit)

end Limits

/-! ## What is left of a list -/

namespace PivotEntry

section Left

variable {s t u : System α} {ids ids' : List ConstraintId}

omit [Scalar α] in
theorem Remains.mono (h : Remains s t ids) (hsub : ids' ⊆ ids) : Remains s t ids' := fun id hid => h id (hsub hid)

omit [Scalar α] in
theorem Remains.trans (h : Remains s t ids) (k : Remains t u ids) : Remains s u ids := by
  intro id hid c hc
  obtain ⟨d, hd, hcd⟩ := k id hid c hc
  obtain ⟨e, he, hde⟩ := h id hid d hd
  exact ⟨e, he, hcd.trans hde⟩

omit [Scalar α] in
theorem Remains.of_sameTerms (h : s.SameTerms t) (ids : List ConstraintId) : Remains s t ids :=
  fun id _ _ hc => exists_constraint_of_terms (h.terms id) hc

theorem Wanted.of_remains {v : Variable} (h : Wanted t ids v) (ht : Remains s t ids) : Wanted s ids v := by
  obtain ⟨id, hid, c, hc, hweighs⟩ := h
  obtain ⟨d, hd, hcd⟩ := ht id hid c hc
  exact ⟨id, hid, d, hd, (Constraint.weighs_congr hcd v).mp hweighs⟩

end Left

end PivotEntry

namespace Model

variable {σ : Type} [Solver α σ] [Solver.Lawful α σ] {m : Model α σ} {ids : List ConstraintId}

/-- An action leaves of the constraints that were added before it nothing but what they were. -/
theorem act_remains (hs : m.system.WellFormed) (hids : ∀ id ∈ ids, id.index < m.system.constraints.size)
    (a : Action α σ) : PivotEntry.Remains m.system (m.act a).system ids := by
  have heffect := m.act_effect a
  generalize (m.act a).system = t at heffect ⊢
  cases heffect with
  | quiet he => exact .of_sameTerms (m.apply_quiet_sameTerms he).1 ids
  | @added d t new h =>
    have hinserted := System.inserted_of_insert h
    intro id hid c hc
    -- the identifier of the new constraint is not one of those given out before
    have hne : id ≠ new := by
      rintro rfl
      exact hinserted.fresh (hids id hid)
    rw [hinserted.constraint, if_neg hne] at hc
    exact ⟨c, hc, rfl⟩
  | removed h =>
    intro id hid c hc
    rw [(System.erased_of_erase h).constraint] at hc
    split at hc
    · cases hc
    · exact ⟨c, hc, rfl⟩
  | switched ha id b =>
    exact .of_sameTerms (m.system.modify_sameTerms id (f := fun c => { c with enabled := b }) fun _ => rfl) ids
  | solved => exact .of_sameTerms (solve_sameOutline hs).sameTerms ids
  | kept ha => exact .refl _ ids

end Model

/-! ## Patched entries -/

namespace PivotEntry

variable {σ : Type} [Solver α σ]

/-- What a selection for a model leads to: a model later on, the constraints whose removal the entries were told of, and
the entries.  In between anything may be done to the model; the removal of a constraint is told after it happened. -/
inductive Maintained (start : Model α σ) (entries : List PivotEntry) :
    Model α σ → List ConstraintId → List PivotEntry → Prop where
  | selected : Maintained start entries start [] entries
  | act {m : Model α σ} {gone : List ConstraintId} {es : List PivotEntry} (h : Maintained start entries m gone es)
    (a : Action α σ) : Maintained start entries (m.act a) gone es
  /-- The entries are told of the removal of a constraint. -/
  | told {m : Model α σ} {gone : List ConstraintId} {es : List PivotEntry} (h : Maintained start entries m gone es)
    (id : ConstraintId) (hid : m.system.constraint? id = none) :
    Maintained start entries m (id :: gone) (withdraw m.system es id)

/-- A list without the constraints that are gone. -/
def rest (ids gone : List ConstraintId) : List ConstraintId := gone.foldr ConstraintId.erase ids

theorem mem_rest {ids gone : List ConstraintId} {id : ConstraintId} : id ∈ rest ids gone ↔ id ∈ ids ∧ id ∉ gone := by
  induction gone with
  | nil => simp [rest]
  | cons a gone ih =>
    show id ∈ a.erase (rest ids gone) ↔ _
    rw [ConstraintId.mem_erase, ih, List.mem_cons, not_or]
    tauto

/-- **What holds of patched entries**: they are founded in the system of the selection, on the constraints that they were
not told to be gone, and the variables that were asked for and are wanted in what is left have an entry. -/
structure Upheld (s : System α) (ids : List ConstraintId) (vs : List Variable) (m : Model α σ)
    (gone : List ConstraintId) (entries : List PivotEntry) : Prop where
  sound : m.system.WellFormed ∧ m.system.Linked
  placed : ∀ id ∈ ids, id.index < m.system.constraints.size
  remains : Remains s m.system ids
  dead : ∀ id ∈ gone, id ∈ ids → m.system.constraint? id = none
  founded : Founded s (rest ids gone) entries
  covers : ∀ v ∈ vs, Wanted m.system ids v → ∃ e ∈ entries, e.pivot = v

namespace Upheld

variable {s : System α} {ids : List ConstraintId} {vs : List Variable} {m : Model α σ} {gone : List ConstraintId}
  {entries : List PivotEntry}

theorem act [Solver.Lawful α σ] (h : Upheld s ids vs m gone entries) (a : Action α σ) :
    Upheld s ids vs (m.act a) gone entries := by
  have hremains := Model.act_remains h.sound.1 h.placed a
  refine ⟨m.act_linked a h.sound.1 h.sound.2, fun id hid => ?_, h.remains.trans hremains, fun id hid hmem => ?_,
    h.founded, fun v hv hwanted => h.covers v hv (hwanted.of_remains hremains)⟩
  · exact Nat.lt_of_lt_of_le (h.placed id hid) (Model.size_le_act h.sound.1 a)
  · -- what is gone does not come back
    rw [← Option.not_isSome_iff_eq_none]
    intro hsome
    obtain ⟨c, hc⟩ := Option.isSome_iff_exists.mp hsome
    obtain ⟨d, hd, -⟩ := hremains id hmem c hc
    rw [h.dead id hid hmem] at hd
    cases hd

omit [Solver α σ] in
theorem told [Scalar.Lawful α] (h : Upheld s ids vs m gone entries) {id : ConstraintId}
    (hid : m.system.constraint? id = none) : Upheld s ids vs m (id :: gone) (withdraw m.system entries id) := by
  have hgone : ∀ other ∈ id :: gone, other ∈ ids → m.system.constraint? other = none :=
    List.forall_mem_cons.mpr ⟨fun _ => hid, h.dead⟩
  have hsub : rest ids (id :: gone) ⊆ ids := fun other hother => (mem_rest.mp hother).1
  obtain ⟨hfounded, hgiven⟩ := h.founded.withdraw id (h.remains.mono hsub)
  refine ⟨h.sound, h.placed, h.remains, hgone, hfounded, fun v hv hwanted => ?_⟩
  obtain ⟨e, he, rfl⟩ := h.covers v hv hwanted
  -- what is wanted anywhere is wanted in what the entries know to be left
  obtain ⟨other, hother, c, hc, hweighs⟩ := hwanted
  have hleft : other ∈ rest ids (id :: gone) := by
    refine mem_rest.mpr ⟨hother, fun hmem => ?_⟩
    rw [hgone other hmem hother] at hc
    cases hc
  exact hgiven e he ⟨other, hleft, c, hc, hweighs⟩

end Upheld

/-- Whatever a selection leads to, the entries are upheld. -/
theorem Maintained.upheld [Scalar.Lawful α] [Solver.Lawful α σ] {start m : Model α σ} {ids : List ConstraintId}
    {vs : List Variable} {gone : List ConstraintId} {entries es : List PivotEntry}
    (hstart : Upheld start.system ids vs start [] entries) (h : Maintained start entries m gone es) :
    Upheld start.system ids vs m gone es := by
  induction h with
  | selected => exact hstart
  | act _ a ih => exact ih.act a
  | told _ id hid ih => exact ih.told hid

end PivotEntry

/-! ## The contract of the selectors -/

theorem Constraint.Bears.coefficientOf {c : Constraint α} {v : Variable} (h : c.Bears v)
    (hdistinct : (c.terms.map (·.var)).Nodup) : nearZero < Scalar.abs (c.coefficientOf v) := by
  obtain ⟨t, ht, hvar, hweight⟩ := h
  unfold Constraint.coefficientOf
  cases hfind : c.terms.find? (·.var = v) with
  | none => exact absurd hvar (by simpa using List.find?_eq_none.mp hfind t ht)
  | some u =>
    have hu : u.var = v := by simpa using List.find?_some hfind
    obtain rfl : u = t := List.inj_on_of_nodup_map hdistinct (List.mem_of_find?_eq_some hfind) ht (hu.trans hvar.symm)
    exact hweight

namespace Model

variable [Generator γ]

/-- **The contract of the selectors.**  Take a model after any history, with finite weights, and let any selector choose
pivots for a list of constraints without repetitions, any variables and any limit.  Then the entries that it returns, and
those that are left after removals were told, each after it happened, satisfy:

* a considered constraint that was not told to be gone has exactly one primary entry if something weighs in it, and none
  otherwise;
* each entry names a considered constraint that was not told to be gone and one of its variables, and that variable weighs
  something in the constraint if the entry is primary;
* each variable that was asked for and has a weight and a share that are not almost zero in a considered constraint that
  is left has an entry. -/
theorem select_contract [Scalar.Lawful α] [Generator.Lawful γ] {σ : Type} [Solver α σ] [Solver.Lawful α σ] (i : Nat)
    (x : Option σ) (actions : List (Action α σ)) (selector : Selector γ) (ids : List ConstraintId)
    (vs : List Variable) (limit : Option Nat) (hn : ids.Nodup)
    (hfinite : ∀ id c, ((Model.new i x).perform actions).system.constraint? id = some c →
      ∀ t ∈ c.terms, Scalar.isFinite t.coefficient = true)
    {m : Model α σ} {gone : List ConstraintId} {entries : List PivotEntry}
    (hmaintained : PivotEntry.Maintained ((Model.new i x).perform actions)
      (selector.select ((Model.new i x).perform actions).system ids vs limit).1.entries m gone entries) :
    let start := (Model.new i x).perform actions
    let names := (considered start.system ids limit).map (·.1)
    (∀ id ∈ names, id ∉ gone → ∀ c, start.system.constraint? id = some c →
      ((∃ t ∈ c.terms, nearZero < Scalar.abs t.coefficient) →
        entries.countP (fun e => e.constraint = id && !e.duplicate) = 1) ∧
      ((¬ ∃ t ∈ c.terms, nearZero < Scalar.abs t.coefficient) →
        entries.countP (fun e => e.constraint = id && !e.duplicate) = 0)) ∧
    (∀ e ∈ entries, e.constraint ∈ names ∧ e.constraint ∉ gone ∧
      ∃ c, start.system.constraint? e.constraint = some c ∧ e.pivot ∈ c.terms.map (·.var) ∧
        (e.duplicate = false → nearZero < Scalar.abs (c.coefficientOf e.pivot))) ∧
    ∀ v ∈ vs, ∀ id ∈ names, ∀ c, m.system.constraint? id = some c → nearZero < Scalar.abs (c.coefficientOf v) →
      nearZero < c.influence v → ∃ e ∈ entries, e.pivot = v := by
  intro start names
  obtain ⟨hs, hlinked⟩ : start.system.WellFormed ∧ start.system.Linked := perform_sound i x actions
  -- the selector only looks at enabled constraints, and all of them have defined weights
  have hlive : ∀ id ∈ names, start.system.flag? id = some true := by
    intro id hid
    obtain ⟨y, hy, rfl⟩ := List.mem_map.mp hid
    obtain ⟨hc, hon⟩ := mem_considered hy
    rw [System.flag?, hc, Option.map_some, hon]
  have hplaced : ∀ id ∈ names, id.index < start.system.constraints.size := by
    intro id hid
    refine System.lt_of_constraint? ?_
    rw [← System.isSome_flag?, hlive id hid]
    rfl
  have hdefined : ∀ y ∈ start.system.live names, y.2.Defined := by
    intro y hy t ht
    exact Scalar.Lawful.defined_of_isFinite (hfinite y.1 y.2 (System.mem_live.mp hy).2.1 t ht)
  obtain ⟨hfounded, hcovers⟩ := selector.select_founded vs (nodup_considered hn limit) hlive hdefined
  rw [selector.select_considered] at hmaintained
  -- what the selection gives is upheld by each removal that it is told of
  have hupheld := hmaintained.upheld
    ⟨⟨hs, hlinked⟩, hplaced, .refl _ _, fun _ hid => absurd hid List.not_mem_nil, hfounded, hcovers⟩
  refine ⟨fun id hid hgone c hc => ⟨fun hheavy => ?_, fun hlight => ?_⟩, fun e he => ?_, ?_⟩
  · exact hupheld.founded.countP_primary (PivotEntry.mem_rest.mpr ⟨hid, hgone⟩) hc hheavy
  · exact hupheld.founded.countP_primary_of_light hc hlight
  · obtain ⟨hid, c, hc, hvar⟩ := hupheld.founded.fits e he
    obtain ⟨hname, hgone⟩ := PivotEntry.mem_rest.mp hid
    refine ⟨hname, hgone, c, hc, hvar, fun hprimary => ?_⟩
    obtain ⟨d, hd, hbears⟩ := hupheld.founded.weighs e he hprimary
    obtain rfl := Option.some.inj (hc.symm.trans hd)
    exact hbears.coefficientOf (hs.fits hc).distinct
  · intro v hv id hid c hc hweight hshare
    exact hupheld.covers v hv ⟨id, hid, c, hc, hweight, hshare⟩

/-- Random pivots over binary64 for three constraints, of which the last one weighs almost nothing; then the first one is
removed and the entries are told.  The second one still has its primary entry, the last one has none, and the variable that
both of the others name has an entry. -/
theorem select_contract_of_removal :
    let actions : List (Action Float (AnySolver (Engine Float KeyStream))) :=
      [.edit (.addVariable none), .edit (.addVariable none),
        .edit (.add ⟨[⟨5, ⟨0, 1⟩⟩], .eq, .fixed 1, 1, true, none, none⟩),
        .edit (.add ⟨[⟨3, ⟨0, 0⟩⟩, ⟨1, ⟨0, 1⟩⟩], .eq, .fixed 4, 1, true, none, none⟩),
        .edit (.add ⟨[⟨1e-13, ⟨0, 0⟩⟩], .eq, .fixed 4, 1, true, none, none⟩)]
    let start := (Model.new 0 none).perform actions
    let selector : Selector KeyStream := .uniform (.ofSeed 7) 8
    let chosen := (selector.select start.system [⟨0⟩, ⟨1⟩, ⟨2⟩] [⟨0, 0⟩, ⟨0, 1⟩] (some 3)).1.entries
    let entries := PivotEntry.withdraw (start.act (.edit (.remove ⟨0⟩))).system chosen ⟨0⟩
    entries.countP (fun e => e.constraint = ⟨1⟩ && !e.duplicate) = 1 ∧
      entries.countP (fun e => e.constraint = ⟨2⟩ && !e.duplicate) = 0 ∧ (∀ e ∈ entries, e.constraint ≠ ⟨0⟩) ∧
      ∃ e ∈ entries, e.pivot = ⟨0, 1⟩ := by
  intro actions start selector chosen entries
  have hfinite : ∀ id c, start.system.constraint? id = some c → ∀ t ∈ c.terms, Scalar.isFinite t.coefficient = true := by
    have hall : (start.system.constraints.all fun c? => c?.all fun c => c.terms.all fun t =>
        Scalar.isFinite t.coefficient) = true := by decide +kernel
    intro id c hc t ht
    have hplace := Array.mem_of_getElem? (Option.join_eq_some_iff.mp hc)
    exact List.all_eq_true.mp (Array.all_eq_true'.mp hall _ hplace) t ht
  have hgone : (start.act (.edit (.remove ⟨0⟩))).system.constraint? ⟨0⟩ = none := by
    rw [← Option.isNone_iff_eq_none]
    decide +kernel
  have hmaintained : PivotEntry.Maintained start chosen (start.act (.edit (.remove ⟨0⟩))) [⟨0⟩] entries :=
    .told (.act .selected (.edit (.remove ⟨0⟩))) ⟨0⟩ hgone
  obtain ⟨hprimary, hnamed, hcovers⟩ := select_contract 0 none actions selector [⟨0⟩, ⟨1⟩, ⟨2⟩] [⟨0, 0⟩, ⟨0, 1⟩] (some 3)
    (by decide) hfinite (by with_reducible exact hmaintained)
  have hheavy : ((start.system.constraint? ⟨1⟩).any fun c => c.terms.any fun t =>
      decide (nearZero < Scalar.abs t.coefficient)) = true := by decide +kernel
  have hlight : ((start.system.constraint? ⟨2⟩).any fun c => c.terms.all fun t =>
      !decide (nearZero < Scalar.abs t.coefficient)) = true := by decide +kernel
  have hweighs : (((start.act (.edit (.remove ⟨0⟩))).system.constraint? ⟨1⟩).any fun c =>
      decide (nearZero < Scalar.abs (c.coefficientOf ⟨0, 1⟩)) && decide (nearZero < c.influence ⟨0, 1⟩)) = true := by
    decide +kernel
  refine ⟨?_, ?_, fun e he hid => ?_, ?_⟩
  · obtain ⟨c, hc, hany⟩ := (Option.any_eq_true _ _).mp hheavy
    exact (hprimary ⟨1⟩ (by decide +kernel) (by decide) c hc).1 (by simpa using hany)
  · obtain ⟨c, hc, hall⟩ := (Option.any_eq_true _ _).mp hlight
    exact (hprimary ⟨2⟩ (by decide +kernel) (by decide) c hc).2 (by simpa using hall)
  · exact (hnamed e he).2.1 (by simp [hid])
  · obtain ⟨c, hc, hboth⟩ := (Option.any_eq_true _ _).mp hweighs
    simp only [Bool.and_eq_true, decide_eq_true_eq] at hboth
    exact hcovers ⟨0, 1⟩ (by decide) ⟨1⟩ (by decide +kernel) c hc hboth.1 hboth.2

end Model

end SoftLinear
