import SoftLinear.Proofs.Arena
import SoftLinear.Proofs.Freshness

/-!
# What a relaxation can see

A relaxation reads the constraints that it is prepared for, the values of the variables and the tolerance.  It writes
events and counts, and never reads them.  Here this is said as a relation between two runs:

* `Progress.Agrees` relates states that differ in what was reported, and in the counts where these do not matter; every
  sweep keeps it, so two courses that agree at the start agree in the end (`Course.Agrees.state`);
* `Constraint.sketch` is what a relaxation can see of a constraint, and `System.Alike` relates systems that show the same
  values and, in the places of a list, the same constraints;
* on systems that are alike an attempt ends in the same way (`Conflict.attempt_alike`).
-/

namespace SoftLinear

variable {α γ : Type} {counted : Prop}

/-! ## Reports and counts -/

/-- Two scopes with the same tolerance and, where they are to be compared, the same counts. -/
structure Scope.Agrees (counted : Prop) (a b : Scope α) : Prop where
  tolerance : b.tolerance = a.tolerance
  stats : counted → b.stats = a.stats

theorem Scope.Agrees.tally {a b : Scope α} (h : a.Agrees counted b) (f : Stats → Stats) :
    (a.tally f).Agrees counted (b.tally f) :=
  ⟨h.tolerance, fun hc => congrArg f (h.stats hc)⟩

theorem Scope.Agrees.report {a b : Scope α} (h : a.Agrees counted b) (e e' : Event α) :
    (a.report e).Agrees counted (b.report e') :=
  ⟨h.tolerance, h.stats⟩

namespace Progress

/-- Two states that differ at most in their scopes, and the scopes agree. -/
def Agrees (counted : Prop) (p q : Progress α) : Prop :=
  ∃ scope, q = { p with scope := scope } ∧ p.scope.Agrees counted scope

variable {p q p' q' : Progress α}

theorem foldl_agrees {β : Type} {f : Progress α → β → Progress α}
    (hf : ∀ {p q} x, Agrees counted p q → Agrees counted (f p x) (f q x)) (l : List β) (h : Agrees counted p q) :
    Agrees counted (l.foldl f p) (l.foldl f q) := by
  induction l generalizing p q with
  | nil => exact h
  | cons x l ih => exact ih (hf x h)

theorem Agrees.tally (h : Agrees counted p q) (f : Stats → Stats) :
    Agrees counted { p with scope := p.scope.tally f } { q with scope := q.scope.tally f } := by
  obtain ⟨scope, rfl, hscope⟩ := h
  exact ⟨_, rfl, hscope.tally f⟩

theorem Agrees.announce (h : Agrees counted p q) (soft soft' : Option α) :
    Agrees counted (p.announce soft) (q.announce soft') := by
  obtain ⟨scope, rfl, hscope⟩ := h
  exact ⟨_, rfl, hscope.report _ _⟩

variable [Scalar α]

theorem Agrees.close {cs cs' : List (Constraint α)} (h : Agrees counted p q)
    (hmeasure : ∀ p, Summary.measure cs' p = Summary.measure cs p) (budget : Nat) :
    Agrees counted (p.close cs budget) (q.close cs' budget) := by
  obtain ⟨scope, rfl, hscope⟩ := h
  refine ⟨scope, ?_, hscope⟩
  simp only [Progress.close, hmeasure]

theorem Agrees.classify (h : Agrees counted p q) : q.classify = p.classify := by
  obtain ⟨scope, rfl, hscope⟩ := h
  unfold Progress.classify
  simp only [hscope.tolerance]

theorem iterate_agrees {sweep sweep' : Progress α → Progress α} {settled settled' : Progress α → Progress α → Bool}
    (hsweep : ∀ {p q}, Agrees counted p q → Agrees counted (sweep p) (sweep' q))
    (hsettled : ∀ {p q p' q'}, Agrees counted p q → Agrees counted p' q' → settled' q q' = settled p p') (n : Nat)
    (h : Agrees counted p q) : Agrees counted (iterate sweep settled n p) (iterate sweep' settled' n q) := by
  induction n generalizing p q with
  | zero => exact h
  | succ n ih =>
    have hnext := hsweep h
    have hstop : q.scope.tolerance = p.scope.tolerance ∧ q.summary = p.summary := by
      obtain ⟨scope, rfl, hscope⟩ := h
      exact ⟨hscope.tolerance, rfl⟩
    unfold iterate
    simp only [hstop.1, hstop.2, hsettled h hnext]
    split
    · split
      · exact hnext
      · exact ih hnext
    · exact h

end Progress

/-- Two courses that begin alike, measure alike and move alike. -/
structure Course.Agrees [Scalar α] (counted : Prop) (c d : Course α) : Prop where
  base : Progress.Agrees counted c.base d.base
  measure : ∀ p, Summary.measure d.constraints p = Summary.measure c.constraints p
  move : ∀ {p q}, Progress.Agrees counted p q → Progress.Agrees counted (c.move p) (d.move q)
  settled : ∀ {p q p' q'}, Progress.Agrees counted p q → Progress.Agrees counted p' q' →
    d.settled q q' = c.settled p p'

theorem Course.Agrees.state [Scalar α] {c d : Course α} (h : c.Agrees counted d) (n : Nat) :
    Progress.Agrees counted (c.state n) (d.state n) := by
  refine Progress.iterate_agrees ?_ h.settled n h.base
  intro p q hpq
  exact ((h.move hpq).close h.measure n).announce _ _

/-! ## Sketches -/

/-- A variable without its owner. -/
def Variable.bare (v : Variable) : Variable := ⟨0, v.index⟩

/-- A term whose variable is known by its position alone. -/
def Term.bare (t : Term α) : Term α := ⟨t.coefficient, t.var.bare⟩

/-- What a relaxation can see of a constraint. -/
def Constraint.sketch (c : Constraint α) : Constraint α where
  terms := c.terms.map Term.bare
  relation := c.relation
  rightSide := .fixed c.rightSide.value
  penalty := c.penalty
  enabled := c.enabled
  pivot := none
  name := none

namespace Constraint

variable [Scalar α] (c : Constraint α) (p : Point α)

@[simp] theorem isHard_sketch : c.sketch.isHard = c.isHard := rfl

omit [Scalar α] in
@[simp] theorem penalty_sketch : c.sketch.penalty = c.penalty := rfl

@[simp] theorem lhs_sketch : c.sketch.lhs p = c.lhs p := by
  unfold lhs sketch
  rw [List.map_map]
  rfl

@[simp] theorem normSquared_sketch : c.sketch.normSquared = c.normSquared := by
  unfold normSquared sketch
  rw [List.map_map]
  rfl

@[simp] theorem error_sketch : c.sketch.error p = c.error p := by
  unfold error
  rw [lhs_sketch]
  rfl

@[simp] theorem deficit_sketch : c.sketch.deficit p = c.deficit p := by
  unfold deficit
  rw [lhs_sketch]
  rfl

@[simp] theorem isSatisfiableAlone_sketch (tol : α) : c.sketch.isSatisfiableAlone tol = c.isSatisfiableAlone tol := by
  unfold isSatisfiableAlone isDegenerate
  rw [normSquared_sketch]
  rfl

@[simp] theorem project_sketch (factor : α) : c.sketch.project p factor = c.project p factor := by
  unfold project
  simp only [deficit_sketch, normSquared_sketch]
  unfold shift
  rw [show c.sketch.terms = c.terms.map Term.bare from rfl, List.foldl_map]
  rfl

theorem measure_sketch (cs : List (Constraint α)) : Summary.measure (cs.map sketch) p = Summary.measure cs p := by
  unfold Summary.measure
  rw [List.foldl_map]
  congr 1
  funext s c
  unfold Summary.add
  rw [error_sketch]
  rfl

end Constraint

/-! ## Moves -/

namespace Kaczmarz

variable [Scalar α] (k : Kaczmarz α) {list list' : List (ConstraintId × Constraint α)} {p q : Progress α}

/-- A sweep sees of the constraints nothing but their sketches. -/
theorem moves_sketch (list : List (ConstraintId × Constraint α)) :
    k.moves (list.map fun x => (x.1, x.2.sketch)) = k.moves list := by
  have hvisit : ∀ p x, k.visit p (x.1, x.2.sketch) = k.visit p x := by
    intro p x
    unfold visit
    simp only [Constraint.project_sketch]
    rfl
  have henforce : ∀ p c, k.enforce p (Constraint.sketch c) = k.enforce p c := by
    intro p c
    simp [enforce]
  have hmap : (list.map fun x => (x.1, x.2.sketch)).map (·.2) = (list.map (·.2)).map Constraint.sketch := by
    simp [Function.comp_def]
  funext p
  unfold moves enforceHard
  simp only [hmap, List.foldl_map, hvisit, List.any_map, List.filter_map, henforce, Function.comp_def,
    Constraint.isHard_sketch]

theorem moves_agrees (list : List (ConstraintId × Constraint α)) (h : Progress.Agrees counted p q) :
    Progress.Agrees counted (k.moves list p) (k.moves list q) := by
  have hvisit : Progress.Agrees counted (list.foldl k.visit p) (list.foldl k.visit q) := by
    refine Progress.foldl_agrees ?_ list h
    rintro p q x ⟨scope, rfl, hscope⟩
    exact ⟨_, rfl, hscope.tally (·.recordProjections _)⟩
  have hhard : Progress.Agrees counted (k.enforceHard (list.map (·.2)) (list.foldl k.visit p))
      (k.enforceHard (list.map (·.2)) (list.foldl k.visit q)) := by
    unfold enforceHard
    split
    · refine Progress.foldl_agrees ?_ _ hvisit
      rintro p q c ⟨scope, rfl, hscope⟩
      exact ⟨_, rfl, hscope.tally (·.recordProjections _)⟩
    · exact hvisit
  unfold moves
  obtain ⟨scope, hq, hscope⟩ := hhard
  rw [hq]
  exact ⟨_, rfl, hscope.tally _⟩

end Kaczmarz

namespace ForceDirected

/-- A spring as a relaxation sees it. -/
def Spring.sketch (x : Spring α) : Spring α := (x.1, x.2.sketch)

variable [Scalar α] {p q : Progress α}

theorem coefficientOf_bare {c : Constraint α} {v : Variable} (h : ∀ t ∈ c.terms, t.var.owner = v.owner) :
    c.sketch.coefficientOf v.bare = c.coefficientOf v := by
  unfold Constraint.coefficientOf Constraint.sketch
  simp only [List.find?_map]
  have hfind : c.terms.find? ((fun t => decide (t.var = v.bare)) ∘ Term.bare) = c.terms.find? (·.var = v) := by
    rw [← List.head?_filter, ← List.head?_filter]
    refine congrArg List.head? (List.filter_congr fun t ht => ?_)
    have howner := h t ht
    obtain ⟨a, ⟨o, i⟩⟩ := t
    obtain ⟨o', j⟩ := v
    obtain rfl : o = o' := howner
    simp [Term.bare, Variable.bare]
  rw [hfind]
  cases c.terms.find? (·.var = v) <;> rfl

theorem pullVariable_sketch {x : Variable × List (Spring α)}
    (h : ∀ y ∈ x.2, ∀ t ∈ y.2.terms, t.var.owner = x.1.owner) (p : Progress α) :
    pullVariable p (x.1.bare, x.2.map Spring.sketch) = pullVariable p x := by
  have hadd : ∀ (l : List (Spring α)) (f : Pull α), (∀ y ∈ l, ∀ t ∈ y.2.terms, t.var.owner = x.1.owner) →
      (l.map Spring.sketch).foldl (Pull.add p.scope.tolerance x.1.bare p.point) f =
        l.foldl (Pull.add p.scope.tolerance x.1 p.point) f := by
    intro l
    induction l with
    | nil => exact fun f _ => rfl
    | cons y l ih =>
      intro f hl
      have hy : Pull.add p.scope.tolerance x.1.bare p.point f y.sketch =
          Pull.add p.scope.tolerance x.1 p.point f y := by
        unfold Pull.add Spring.sketch
        simp only [Constraint.deficit_sketch, Constraint.normSquared_sketch,
          coefficientOf_bare (hl y List.mem_cons_self)]
        rfl
      rw [List.map_cons, List.foldl_cons, List.foldl_cons, hy]
      exact ih _ fun z hz => hl z (List.mem_cons_of_mem y hz)
  unfold pullVariable
  simp only [hadd x.2 _ h]
  rfl

theorem enforceHard_sketch (hard : List (Constraint α)) (n : Nat) (p : Progress α) :
    enforceHard (hard.map Constraint.sketch) n p = enforceHard hard n p := by
  induction n generalizing p with
  | zero => rfl
  | succ n ih =>
    have henforce : ∀ (acc : Progress α × Bool) c, enforce acc (Constraint.sketch c) = enforce acc c := by
      intro acc c
      simp [enforce]
    unfold enforceHard
    simp only [List.foldl_map, henforce, ih]

/-- A round sees of the constraints nothing but their sketches, and of the variables nothing but their positions. -/
theorem moves_sketch (cooling : α) (hardSweeps : Nat) (cs : List (Constraint α))
    {nodes : List (Variable × List (Spring α))}
    (h : ∀ x ∈ nodes, ∀ y ∈ x.2, ∀ t ∈ y.2.terms, t.var.owner = x.1.owner) :
    moves cooling hardSweeps (cs.map Constraint.sketch)
      (nodes.map fun x => (x.1.bare, x.2.map Spring.sketch)) = moves cooling hardSweeps cs nodes := by
  funext p
  have hpull : (nodes.map fun x => (x.1.bare, x.2.map Spring.sketch)).foldl pullVariable p =
      nodes.foldl pullVariable p := by
    rw [List.foldl_map]
    exact List.foldl_ext _ _ p fun p x hx => pullVariable_sketch (h x hx) p
  unfold moves
  simp only [hpull, List.filter_map, Function.comp_def, Constraint.isHard_sketch, enforceHard_sketch]

theorem pullVariable_agrees (x : Variable × List (Spring α)) (h : Progress.Agrees counted p q) :
    Progress.Agrees counted (pullVariable p x) (pullVariable q x) := by
  obtain ⟨scope, rfl, hscope⟩ := h
  unfold pullVariable
  simp only [hscope.tolerance]
  split
  · exact ⟨_, rfl, hscope.tally (·.recordProjections 1)⟩
  · exact ⟨_, rfl, hscope⟩

theorem foldl_enforce_agrees (hard : List (Constraint α)) (flag : Bool) (h : Progress.Agrees counted p q) :
    Progress.Agrees counted (hard.foldl enforce (p, flag)).1 (hard.foldl enforce (q, flag)).1 ∧
      (hard.foldl enforce (q, flag)).2 = (hard.foldl enforce (p, flag)).2 := by
  induction hard generalizing p q flag with
  | nil => exact ⟨h, rfl⟩
  | cons c hard ih =>
    obtain ⟨scope, rfl, hscope⟩ := h
    have hnext := ih (p := (enforce (p, flag) c).1) (enforce (p, flag) c).2
      ⟨_, rfl, hscope.tally (·.recordProjections _)⟩
    simp only [enforce, hscope.tolerance, List.foldl_cons] at hnext ⊢
    exact hnext

theorem enforceHard_agrees (hard : List (Constraint α)) (n : Nat) (h : Progress.Agrees counted p q) :
    Progress.Agrees counted (enforceHard hard n p) (enforceHard hard n q) := by
  induction n generalizing p q with
  | zero => exact h
  | succ n ih =>
    obtain ⟨hfold, hflag⟩ := foldl_enforce_agrees hard false h
    have hcount := hfold.tally Stats.recordSweep
    unfold enforceHard
    simp only [hflag]
    split
    · exact ih hcount
    · exact hcount

theorem moves_agrees (cooling : α) (hardSweeps : Nat) (cs : List (Constraint α))
    (nodes : List (Variable × List (Spring α))) (h : Progress.Agrees counted p q) :
    Progress.Agrees counted (moves cooling hardSweeps cs nodes p) (moves cooling hardSweeps cs nodes q) := by
  have hhard := enforceHard_agrees (cs.filter (·.isHard)) hardSweeps
    (Progress.foldl_agrees (fun x => pullVariable_agrees x) nodes h)
  unfold moves
  obtain ⟨scope, hq, hscope⟩ := hhard
  rw [hq]
  exact ⟨scope, rfl, hscope⟩

end ForceDirected

/-! ## Systems -/

namespace System

variable [Scalar α] {ids : List ConstraintId} {s t : System α}

/-- Two systems that show the same values and, in the places of a list, the same constraints. -/
structure Alike (ids : List ConstraintId) (s t : System α) : Prop where
  values : t.values = s.values
  sketches : ∀ id ∈ ids, (t.constraint? id).map Constraint.sketch = (s.constraint? id).map Constraint.sketch
  sound : s.WellFormed ∧ s.Linked
  sound' : t.WellFormed ∧ t.Linked

theorem Alike.flag (h : Alike ids s t) {id : ConstraintId} (hid : id ∈ ids) : t.flag? id = s.flag? id := by
  have hflag : ∀ u : System α, u.flag? id = ((u.constraint? id).map Constraint.sketch).map (·.enabled) := by
    intro u
    rw [Option.map_map]
    rfl
  rw [hflag, hflag, h.sketches id hid]

theorem Alike.liveIds (h : Alike ids s t) {members : List ConstraintId} (hsub : members ⊆ ids) :
    t.liveIds members = s.liveIds members := by
  rw [liveIds_eq_filter, liveIds_eq_filter]
  exact List.filter_congr fun id hid => by rw [h.flag (hsub hid)]

theorem Alike.live (h : Alike ids s t) {members : List ConstraintId} (hsub : members ⊆ ids) :
    (t.live members).map (fun x => (x.1, x.2.sketch)) = (s.live members).map fun x => (x.1, x.2.sketch) := by
  induction members with
  | nil => rfl
  | cons id members ih =>
    rw [live_cons, live_cons, List.map_append, List.map_append, ih fun x hx => hsub (List.mem_cons_of_mem id hx)]
    congr 1
    have hsketch := h.sketches id (hsub List.mem_cons_self)
    cases hs : s.constraint? id with
    | none =>
      rw [hs, Option.map_none, Option.map_eq_none_iff] at hsketch
      rw [hsketch]
    | some c =>
      rw [hs, Option.map_some] at hsketch
      obtain ⟨d, hd, hdc⟩ := Option.map_eq_some_iff.mp hsketch
      have hon : d.enabled = c.enabled := (congrArg Constraint.enabled hdc :)
      rw [hd]
      cases he : c.enabled <;> simp [hon, he, hdc]

omit [Scalar α] in
theorem constraint?_setEnabledAll (s : System α) (switched : List ConstraintId) (b : Bool) (id : ConstraintId) :
    (s.setEnabledAll switched b).constraint? id =
      if id ∈ switched then (s.constraint? id).map fun c => { c with enabled := b } else s.constraint? id := by
  unfold setEnabledAll
  induction switched generalizing s with
  | nil => simp
  | cons a switched ih =>
    rw [List.foldl_cons, ih, constraint?_modify]
    by_cases ha : id = a
    · subst ha
      simp [Option.map_map, Function.comp_def]
    · simp [ha]

theorem Alike.switch (h : Alike ids s t) (switched : List ConstraintId) (b : Bool) :
    Alike ids (s.setEnabledAll switched b) (t.setEnabledAll switched b) where
  values := by rw [values_setEnabledAll, values_setEnabledAll, h.values]
  sketches id hid := by
    have hsketch := congrArg (Option.map fun c => { c with enabled := b }) (h.sketches id hid)
    rw [constraint?_setEnabledAll, constraint?_setEnabledAll]
    split
    · rw [Option.map_map, Option.map_map] at hsketch ⊢
      exact hsketch
    · exact h.sketches id hid
  sound := ⟨(setEnabledAll_sameOutline s switched b).wellFormed h.sound.1,
    (setEnabledAll_sameOutline s switched b).sameTerms.linked h.sound.2⟩
  sound' := ⟨(setEnabledAll_sameOutline t switched b).wellFormed h.sound'.1,
    (setEnabledAll_sameOutline t switched b).sameTerms.linked h.sound'.2⟩

omit [Scalar α] in
theorem values_storeValues_eq (s : System α) (p : Point α) :
    (s.storeValues p).values = s.values.mapIdx fun i v => (p[i]?).getD v := by
  apply Array.ext
  · simp [values, storeValues]
  · intro i h1 h2
    simp only [values, storeValues, Array.getElem_map, Array.getElem_mapIdx]
    cases p[i]? <;> rfl

theorem Alike.store (h : Alike ids s t) (p : Point α) : Alike ids (s.storeValues p) (t.storeValues p) where
  values := by rw [values_storeValues_eq, values_storeValues_eq, h.values]
  sketches := h.sketches
  sound := ⟨(storeValues_sameRules s p).toSameOutline.wellFormed h.sound.1,
    (storeValues_sameRules s p).sameTerms.linked h.sound.2⟩
  sound' := ⟨(storeValues_sameRules t p).toSameOutline.wellFormed h.sound'.1,
    (storeValues_sameRules t p).sameTerms.linked h.sound'.2⟩

/-! ### Springs -/

/-- In a system a variable is known by its position: what names it can be read off the sketches. -/
theorem WellFormed.names_iff (h : s.WellFormed) (i : Nat) (id : ConstraintId) :
    s.Names ⟨s.id, i⟩ id ↔ ∃ c ∈ (s.constraint? id).map Constraint.sketch, ⟨0, i⟩ ∈ c.terms.map (·.var) := by
  unfold Names
  cases hc : s.constraint? id with
  | none => simp
  | some c =>
    have howned : ∀ x ∈ c.terms, x.var.owner = s.id := by
      intro x hx
      have := (h.fits hc).owned x hx
      simp only [owns, Bool.and_eq_true, decide_eq_true_eq] at this
      exact this.1
    simp only [Option.some.injEq, exists_eq_left', Option.map_some, Option.mem_def, List.mem_map, Constraint.sketch]
    constructor
    · rintro ⟨x, hx, hv⟩
      exact ⟨x.bare, ⟨x, hx, rfl⟩, by rw [Term.bare, hv]; rfl⟩
    · rintro ⟨_, ⟨x, hx, rfl⟩, hv⟩
      refine ⟨x, hx, ?_⟩
      have hindex : x.var.index = i := congrArg Variable.index hv
      rw [← howned x hx, ← hindex]

theorem Alike.springs (h : Alike ids s t) {members : List ConstraintId} (hsub : members ⊆ ids) (i : Nat) :
    (ForceDirected.springs t members ⟨t.id, i⟩).map ForceDirected.Spring.sketch =
      (ForceDirected.springs s members ⟨s.id, i⟩).map ForceDirected.Spring.sketch := by
  -- both lists of names are ascending, and the same constraints of the list are in them
  have hnames : (t.activeOf ⟨t.id, i⟩).filter members.contains = (s.activeOf ⟨s.id, i⟩).filter members.contains := by
    refine ConstraintId.eq_of_ascending ((h.sound'.2.ascending _).filter _) ((h.sound.2.ascending _).filter _) ?_
    intro id
    simp only [List.mem_filter, List.contains_iff_mem, h.sound'.2.mem, h.sound.2.mem]
    refine and_congr_left fun hid => ?_
    rw [h.sound'.1.names_iff, h.sound.1.names_iff, h.sketches id (hsub hid)]
  have hresolve : ∀ u : System α, ∀ list : List ConstraintId, (u.resolve list).map ForceDirected.Spring.sketch =
      list.filterMap fun id => ((u.constraint? id).map Constraint.sketch).map fun c => (id, c) := by
    intro u list
    unfold resolve
    rw [List.map_filterMap]
    refine congrArg (List.filterMap · list) (funext fun id => ?_)
    cases u.constraint? id <;> rfl
  unfold ForceDirected.springs
  rw [hresolve, hresolve, hnames]
  refine List.filterMap_congr fun id hid => ?_
  rw [h.sketches id (hsub (by simpa using (List.mem_filter.mp hid).2))]

end System

namespace ForceDirected

/-- Variables of one owner are told apart by their places alone. -/
theorem contains_bare {seen : List Variable} {v : Variable} {owner : Nat} (hv : v.owner = owner)
    (hseen : ∀ w ∈ seen, w.owner = owner) : (seen.map Variable.bare).contains v.bare = seen.contains v := by
  rw [Bool.eq_iff_iff, List.contains_iff_mem, List.contains_iff_mem, List.mem_map]
  constructor
  · rintro ⟨w, hw, hbare⟩
    have howner := (hseen w hw).trans hv.symm
    have hindex : w.index = v.index := (congrArg Variable.index hbare :)
    obtain rfl : w = v := by cases w; cases v; simp_all
    exact hw
  · exact fun hv => ⟨v, hv, rfl⟩

theorem foldl_bare {vs : List Variable} {owner : Nat} (hvs : ∀ v ∈ vs, v.owner = owner) (seen : List Variable)
    (hseen : ∀ v ∈ seen, v.owner = owner) :
    (vs.map Variable.bare).foldl (fun seen v => if seen.contains v then seen else seen ++ [v]) (seen.map Variable.bare) =
      (vs.foldl (fun seen v => if seen.contains v then seen else seen ++ [v]) seen).map Variable.bare := by
  induction vs generalizing seen with
  | nil => rfl
  | cons v vs ih =>
    obtain ⟨hv, hrest⟩ := List.forall_mem_cons.mp hvs
    rw [List.map_cons, List.foldl_cons, List.foldl_cons, contains_bare hv hseen]
    split
    · exact ih hrest seen hseen
    · have hnext := ih hrest (seen ++ [v]) (List.forall_mem_append.mpr ⟨hseen, List.forall_mem_singleton.mpr hv⟩)
      rwa [List.map_append, List.map_singleton] at hnext

theorem participants_sketch {cs : List (Constraint α)} {owner : Nat} (h : ∀ c ∈ cs, ∀ t ∈ c.terms, t.var.owner = owner) :
    participants (cs.map Constraint.sketch) = (participants cs).map Variable.bare := by
  have hvars : (cs.map Constraint.sketch).flatMap (fun c => c.terms.map (·.var)) =
      (cs.flatMap fun c => c.terms.map (·.var)).map Variable.bare := by
    simp [List.flatMap_map, List.map_flatMap, Constraint.sketch, Function.comp_def, Term.bare]
  have howner : ∀ v ∈ cs.flatMap (fun c => c.terms.map (·.var)), v.owner = owner := by
    intro v hv
    obtain ⟨c, hc, hv⟩ := List.mem_flatMap.mp hv
    obtain ⟨t, ht, rfl⟩ := List.mem_map.mp hv
    exact h c hc t ht
  unfold participants
  rw [hvars]
  exact foldl_bare howner [] (List.forall_mem_nil _)

theorem mem_participants {cs : List (Constraint α)} {v : Variable} (h : v ∈ participants cs) :
    ∃ c ∈ cs, ∃ t ∈ c.terms, t.var = v := by
  have key : ∀ vs seen : List Variable,
      v ∈ vs.foldl (fun seen v => if seen.contains v then seen else seen ++ [v]) seen → v ∈ seen ∨ v ∈ vs := by
    intro vs
    induction vs with
    | nil => exact fun seen hv => .inl hv
    | cons w vs ih =>
      intro seen hv
      have hnext := ih _ hv
      dsimp only at hnext
      split at hnext
      · exact hnext.imp_right (List.mem_cons_of_mem w)
      · simp only [List.mem_append, List.mem_cons] at hnext ⊢
        tauto
  rcases key _ [] h with hv | hv
  · cases hv
  · obtain ⟨c, hc, hv⟩ := List.mem_flatMap.mp hv
    obtain ⟨t, ht, hv⟩ := List.mem_map.mp hv
    exact ⟨c, hc, t, ht, hv⟩

end ForceDirected

/-! ## Runs -/

/-- Two runs of the same relaxation, one that chooses no pivots, on systems that are alike. -/
structure Run.Alike [Scalar α] (counted : Prop) (ids : List ConstraintId) (r r' : Run α (Engine α γ)) : Prop where
  engine : r'.engine = r.engine
  plain : r.engine.choosesPivots = false
  scope : r.scope.Agrees counted r'.scope
  system : r.system.Alike ids r'.system

namespace Run.Alike

variable [Scalar α] {ids : List ConstraintId} {r r' : Run α (Engine α γ)}

theorem owner_of_fits {s : System α} (hs : s.WellFormed) {id : ConstraintId} {c : Constraint α}
    (hc : s.constraint? id = some c) : ∀ t ∈ c.terms, t.var.owner = s.id := by
  intro t ht
  have howned := (hs.fits hc).owned t ht
  simp only [System.owns, Bool.and_eq_true, decide_eq_true_eq] at howned
  exact howned.1

theorem live_owner {s : System α} (hs : s.WellFormed) {members : List ConstraintId} :
    ∀ c ∈ (s.live members).map (·.2), ∀ t ∈ c.terms, t.var.owner = s.id := by
  intro c hc
  obtain ⟨x, hx, rfl⟩ := List.mem_map.mp hc
  exact owner_of_fits hs (System.mem_live.mp hx).2.1

theorem participants_owner {s : System α} (hs : s.WellFormed) {members : List ConstraintId} {v : Variable}
    (hv : v ∈ ForceDirected.participants ((s.live members).map (·.2))) : v.owner = s.id := by
  obtain ⟨c, hc, t, ht, rfl⟩ := ForceDirected.mem_participants hv
  exact live_owner hs c hc t ht

/-- A round of the force-directed relaxation, as it sees the constraints and variables of a system. -/
theorem moves_force {s : System α} (hs : s.WellFormed) (cooling : α) (hardSweeps : Nat) (members : List ConstraintId) :
    let list := s.live members
    ForceDirected.moves cooling hardSweeps (list.map (·.2)) ((ForceDirected.participants (list.map (·.2))).map fun v =>
        (v, ForceDirected.springs s (list.map (·.1)) v)) =
      ForceDirected.moves cooling hardSweeps ((list.map (·.2)).map Constraint.sketch)
        ((ForceDirected.participants ((list.map (·.2)).map Constraint.sketch)).map fun u =>
          (u, (ForceDirected.springs s (list.map (·.1)) ⟨s.id, u.index⟩).map ForceDirected.Spring.sketch)) := by
  intro list
  have hnodes : ((ForceDirected.participants (list.map (·.2))).map fun v =>
        (v, ForceDirected.springs s (list.map (·.1)) v)).map
          (fun x => (x.1.bare, x.2.map ForceDirected.Spring.sketch)) =
      (ForceDirected.participants ((list.map (·.2)).map Constraint.sketch)).map fun u =>
        (u, (ForceDirected.springs s (list.map (·.1)) ⟨s.id, u.index⟩).map ForceDirected.Spring.sketch) := by
    rw [ForceDirected.participants_sketch (live_owner hs), List.map_map, List.map_map]
    refine List.map_congr_left fun v hv => ?_
    have hv' : v = ⟨s.id, v.bare.index⟩ := by
      rw [← participants_owner hs hv]
      rfl
    simp only [Function.comp_apply]
    rw [← hv']
  rw [← hnodes, ForceDirected.moves_sketch]
  intro x hx y hy t ht
  obtain ⟨v, hv, rfl⟩ := List.mem_map.mp hx
  obtain ⟨id, -, hid⟩ := List.mem_filterMap.mp hy
  obtain ⟨c, hc, rfl⟩ := Option.map_eq_some_iff.mp hid
  rw [owner_of_fits hs hc t ht, participants_owner hs hv]

theorem sketches_live {s t : System α} (h : s.Alike ids t) {members : List ConstraintId} (hsub : members ⊆ ids) :
    ((t.live members).map (·.2)).map Constraint.sketch = ((s.live members).map (·.2)).map Constraint.sketch := by
  have hlive := congrArg (List.map Prod.snd) (h.live hsub)
  rw [List.map_map, List.map_map] at hlive ⊢
  exact hlive

theorem moves_force_eq {s t : System α} (h : s.Alike ids t) (cooling : α) (hardSweeps : Nat)
    {members : List ConstraintId} (hsub : members ⊆ ids) :
    ForceDirected.moves cooling hardSweeps ((t.live members).map (·.2))
        ((ForceDirected.participants ((t.live members).map (·.2))).map fun v =>
          (v, ForceDirected.springs t ((t.live members).map (·.1)) v)) =
      ForceDirected.moves cooling hardSweeps ((s.live members).map (·.2))
        ((ForceDirected.participants ((s.live members).map (·.2))).map fun v =>
          (v, ForceDirected.springs s ((s.live members).map (·.1)) v)) := by
  have hids : (t.live members).map (·.1) = (s.live members).map (·.1) := h.liveIds hsub
  have hmembers : (s.live members).map (·.1) ⊆ ids := fun id hid => hsub (System.mem_liveIds.mp hid).1
  have hsketch := moves_force h.sound'.1 cooling hardSweeps members
  simp only [sketches_live h hsub, hids, h.springs hmembers] at hsketch
  rw [hids]
  exact hsketch.trans (moves_force h.sound.1 cooling hardSweeps members).symm

theorem course (h : Run.Alike counted ids r r') (hsub : r.engine.prepared ⊆ ids) :
    (Engine.course r).Agrees counted (Engine.course r') := by
  obtain ⟨e, s, scope⟩ := r
  obtain ⟨e', t, scope'⟩ := r'
  obtain ⟨rfl, hplain, hscope, hsystem⟩ := h
  have hmeasure : ∀ p, Summary.measure (Engine.active ⟨e', t, scope'⟩) p =
      Summary.measure (Engine.active ⟨e', s, scope⟩) p := by
    intro p
    rw [← Constraint.measure_sketch, Engine.active, sketches_live hsystem hsub, Constraint.measure_sketch]
    rfl
  have hbase : ∀ strength, Progress.Agrees counted
      (Progress.start (Engine.active ⟨e', s, scope⟩) s strength scope)
      (Progress.start (Engine.active ⟨e', t, scope'⟩) t strength scope') := by
    intro strength
    refine ⟨scope'.tally Stats.recordRelaxCall, ?_, hscope.tally _⟩
    simp only [Progress.start, hsystem.values, hmeasure]
  cases e' with
  | kaczmarz k =>
    have hmoves : k.moves (t.live k.prepared) = k.moves (s.live k.prepared) := by
      rw [← k.moves_sketch, ← k.moves_sketch (s.live k.prepared)]
      exact congrArg k.moves (hsystem.live hsub)
    refine ⟨hbase k.factor, hmeasure, fun {p q} hpq => ?_, fun _ _ => rfl⟩
    -- projections do not read what a sketch leaves out
    show Progress.Agrees counted (k.moves _ p) (k.moves _ q)
    rw [hmoves]
    exact k.moves_agrees _ hpq
  | gaussSeidel g => cases hplain
  | forceDirected f =>
    refine ⟨hbase 1, hmeasure, fun {p q} hpq => ?_, ?_⟩
    · have hmove : (Engine.course ⟨Engine.forceDirected f, t, scope'⟩ : Course α).move =
          (Engine.course ⟨Engine.forceDirected f, s, scope⟩ : Course α).move :=
        moves_force_eq hsystem f.cooling f.hardSweeps hsub
      rw [hmove]
      exact ForceDirected.moves_agrees _ _ _ _ hpq
    · rintro p q p' q' ⟨scope, rfl, hscope⟩ ⟨scope', rfl, hscope'⟩
      show ForceDirected.settled _ _ = ForceDirected.settled _ _
      simp only [ForceDirected.settled, hscope'.tolerance]

variable [Generator γ]

/-- **On systems that are alike a relaxation ends in the same way** and leaves systems that are alike. -/
theorem relax (h : Run.Alike counted ids r r') (hsub : r.engine.prepared ⊆ ids) (n : Nat) :
    (Relaxation.relax r' n).2 = (Relaxation.relax r n).2 ∧
      Run.Alike counted ids (Relaxation.relax r n).1 (Relaxation.relax r' n).1 := by
  obtain ⟨scope, hstate, hscope⟩ := (h.course hsub).state n
  have hclassify := Progress.Agrees.classify ⟨scope, hstate, hscope⟩
  have houtcome : ∀ r : Run α (Engine α γ), (Relaxation.relax r n).2 =
      let p := (Engine.course r).state n
      ⟨p.classify, p.sweeps, p.summary.max, p.summary.hard, p.residuals⟩ := by
    rintro ⟨e, s, scope⟩
    cases e <;> rfl
  have hplain' : r'.engine.choosesPivots = false := h.engine ▸ h.plain
  obtain ⟨hsystem, -, e, -, hreport⟩ := Engine.relax_run r n
  obtain ⟨hsystem', -, e', -, hreport'⟩ := Engine.relax_run r' n
  refine ⟨?_, ?_, ?_, ?_, ?_⟩
  · rw [houtcome, houtcome]
    simp only [hclassify]
    rw [hstate]
  · rw [Engine.engine_relax hplain', Engine.engine_relax h.plain, h.engine]
  · rw [Engine.engine_relax h.plain]
    exact h.plain
  · rw [hreport, hreport', hstate]
    exact hscope.report e e'
  · rw [hsystem, hsystem', hstate]
    exact h.system.store _

end Run.Alike

namespace Conflict

variable [Scalar α] [Generator γ] {sorted : List ConstraintId} {r r' : Run α (Engine α γ)}

theorem attempt_alike (h : Run.Alike counted sorted r r') (budget : Nat) :
    (attempt r' sorted budget).2 = (attempt r sorted budget).2 ∧
      Run.Alike counted sorted (attempt r sorted budget).1 (attempt r' sorted budget).1 := by
  have hplain' : r'.engine.choosesPivots = false := h.engine ▸ h.plain
  have hlive := h.system.liveIds (List.Subset.refl sorted)
  have hready : Run.Alike counted sorted { r with engine := r.engine.withPrepared (r.system.liveIds sorted) }
      { r' with engine := r'.engine.withPrepared (r'.system.liveIds sorted) } := by
    refine ⟨?_, ?_, h.scope, h.system⟩
    · rw [hlive, h.engine]
    · rw [Engine.choosesPivots_withPrepared]
      exact h.plain
  unfold attempt
  rw [Engine.prepare_eq h.plain, Engine.prepare_eq hplain']
  refine hready.relax ?_ budget
  rw [Engine.prepared_withPrepared]
  exact fun id hid => (System.mem_liveIds.mp hid).1

end Conflict

end SoftLinear
