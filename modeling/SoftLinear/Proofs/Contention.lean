import SoftLinear.Proofs.Greedy
import SoftLinear.Proofs.ShareLaws
import SoftLinear.Proofs.Upkeep

/-!
# Contention for pivots

In a deterministic selection an equality uses its pivot up.  So two equalities have the same pivot only when the later one
was left no other choice: all its variables were used up by then.  For the same reason a constraint passes over a heavier
term only when the variable of that term was used up.

The order in which the candidates are dealt with is not the order of the entries, so the invariant (`Contended`) does not
mention it: it relates the variables used up so far to the pivots of the candidates dealt with so far.
-/

namespace SoftLinear

variable {α : Type} [Scalar α]

theorem Constraint.coefficientOf_of_mem {c : Constraint α} (hdistinct : (c.terms.map (·.var)).Nodup) {t : Term α}
    (ht : t ∈ c.terms) : c.coefficientOf t.var = t.coefficient := by
  unfold coefficientOf
  rw [find_of_nodup Term.var hdistinct ht]

namespace Deterministic

variable {st : State α} {done : List (Candidate α)} {x : Candidate α} {list : List (ConstraintId × Constraint α)}

/-! ## The choices of a run -/

/-- A variable is the pivot of an equality among the candidates dealt with, other than the one at a place. -/
def Taken (done : List (Candidate α)) (st : State α) (place : Nat) (v : Variable) : Prop :=
  ∃ y ∈ done, y.place ≠ place ∧ y.constraint.relation = .eq ∧ (y.place, v) ∈ st.pivots

/-- **What the variables used up say about the pivots.** -/
structure Contended (done : List (Candidate α)) (st : State α) : Prop where
  placed : ∀ p ∈ st.pivots, ∃ y ∈ done, y.place = p.1
  used : ∀ v ∈ st.assigned, ∃ y ∈ done, y.constraint.relation = .eq ∧ (y.place, v) ∈ st.pivots
  spent : ∀ y ∈ done, y.constraint.relation = .eq → ∀ v, (y.place, v) ∈ st.pivots → v ∈ st.assigned
  heavier : ∀ y ∈ done, ∀ v, (y.place, v) ∈ st.pivots → ∀ u ∈ y.constraint.terms,
    Scalar.abs (y.constraint.coefficientOf v) < Scalar.abs u.coefficient → Taken done st y.place u.var
  forced : ∀ y ∈ done, ∀ z ∈ done, y.place ≠ z.place → y.constraint.relation = .eq → z.constraint.relation = .eq →
    ∀ v, (y.place, v) ∈ st.pivots → (z.place, v) ∈ st.pivots →
    (∀ u ∈ y.constraint.terms, nearZero < Scalar.abs u.coefficient → Taken done st y.place u.var) ∨
      (∀ u ∈ z.constraint.terms, nearZero < Scalar.abs u.coefficient → Taken done st z.place u.var)

theorem Taken.step {place : Nat} {v : Variable} (h : Taken done st place v) (x : Candidate α) :
    Taken (x :: done) (step st x) place v := by
  obtain ⟨y, hy, hplace, heq, hpivot⟩ := h
  exact ⟨y, List.mem_cons_of_mem _ hy, hplace, heq, mem_step_pivots.mpr (.inr hpivot)⟩

theorem Contended.step [Scalar.Lawful α] (h : Contended done st) (hfresh : ∀ y ∈ done, y.place ≠ x.place)
    (hdefined : x.constraint.Defined) (hdistinct : (x.constraint.terms.map (·.var)).Nodup) :
    Contended (x :: done) (step st x) := by
  -- a pivot that is there after the step is that of `x`, or it was there before
  have hown : ∀ v, (x.place, v) ∈ (Deterministic.step st x).pivots →
      ∃ t, chosen? st.assigned x.constraint = some t ∧ v = t.var := by
    intro v hv
    rcases mem_step_pivots.mp hv with ⟨t, ht, hp⟩ | hold
    · exact ⟨t, ht, (Prod.mk.inj hp).2⟩
    · obtain ⟨y, hy, hplace⟩ := h.placed _ hold
      exact absurd hplace (hfresh y hy)
  have hold : ∀ y ∈ done, ∀ v, (y.place, v) ∈ (Deterministic.step st x).pivots → (y.place, v) ∈ st.pivots := by
    intro y hy v hv
    refine (mem_step_pivots.mp hv).resolve_left ?_
    rintro ⟨t, -, hp⟩
    exact hfresh y hy (Prod.mk.inj hp).1
  have htaken : ∀ v ∈ st.assigned, Taken (x :: done) (Deterministic.step st x) x.place v := by
    intro v hv
    obtain ⟨y, hy, heq, hpivot⟩ := h.used v hv
    exact Taken.step ⟨y, hy, hfresh y hy, heq, hpivot⟩ x
  -- two equalities with one pivot, of which `x` is the later one
  have hlater : ∀ y ∈ done, y.constraint.relation = .eq → ∀ v, (y.place, v) ∈ (Deterministic.step st x).pivots →
      (x.place, v) ∈ (Deterministic.step st x).pivots → ∀ u ∈ x.constraint.terms,
      nearZero < Scalar.abs u.coefficient → Taken (x :: done) (Deterministic.step st x) x.place u.var := by
    intro y hy heq v hyv hxv u hu hweight
    obtain ⟨t, ht, rfl⟩ := hown v hxv
    obtain ⟨-, -, -, hall⟩ := chosen_spec hdefined ht
    exact htaken _ (hall (h.spent y hy heq _ (hold y hy _ hyv)) u hu hweight)
  refine ⟨?_, ?_, ?_, ?_, ?_⟩
  · -- placed: a pivot names a constraint dealt with
    intro p hp
    rcases mem_step_pivots.mp hp with ⟨t, -, rfl⟩ | hp
    · exact ⟨x, List.mem_cons_self, rfl⟩
    · obtain ⟨y, hy, hplace⟩ := h.placed p hp
      exact ⟨y, List.mem_cons_of_mem _ hy, hplace⟩
  · -- used: a variable is used up by the equality whose pivot it is
    intro v hv
    rcases mem_step_assigned.mp hv with ⟨t, ht, heq, rfl⟩ | hv
    · exact ⟨x, List.mem_cons_self, heq, mem_step_pivots.mpr (.inl ⟨t, ht, rfl⟩)⟩
    · obtain ⟨y, hy, -, heq, hpivot⟩ := htaken v hv
      exact ⟨y, hy, heq, hpivot⟩
  · -- spent: the pivot of an equality is used up
    refine List.forall_mem_cons.mpr ⟨fun heq v hv => ?_, fun y hy heq v hv => ?_⟩
    · obtain ⟨t, ht, rfl⟩ := hown v hv
      exact mem_step_assigned.mpr (.inl ⟨t, ht, heq, rfl⟩)
    · exact mem_step_assigned.mpr (.inr (h.spent y hy heq v (hold y hy v hv)))
  · -- heavier: what weighs more than a pivot was taken before
    refine List.forall_mem_cons.mpr ⟨fun v hv u hu hlt => ?_, fun y hy v hv u hu hlt => ?_⟩
    · obtain ⟨t, ht, rfl⟩ := hown v hv
      obtain ⟨hmem, -, hheavier, -⟩ := chosen_spec hdefined ht
      rw [Constraint.coefficientOf_of_mem hdistinct hmem] at hlt
      exact htaken _ (hheavier u hu hlt)
    · exact (h.heavier y hy v (hold y hy v hv) u hu hlt).step x
  · -- forced: only a pair with `x` is new, and there the later of the two has no other choice
    refine List.forall_mem_cons.mpr ⟨List.forall_mem_cons.mpr ⟨fun hne => absurd rfl hne, ?_⟩, fun y hy =>
      List.forall_mem_cons.mpr ⟨?_, ?_⟩⟩
    · exact fun z hz _ _ heq v hxv hzv => .inl (hlater z hz heq v hzv hxv)
    · exact fun _ heq _ v hyv hxv => .inr (hlater y hy heq v hyv hxv)
    · intro z hz hne heq heq' v hyv hzv
      refine (h.forced y hy z hz hne heq heq' v (hold y hy v hyv) (hold z hz v hzv)).imp ?_ ?_
      · exact fun hall u hu hweight => (hall u hu hweight).step x
      · exact fun hall u hu hweight => (hall u hu hweight).step x

theorem known_contended [Scalar.Lawful α] (hdefined : ∀ x ∈ list, x.2.Defined)
    (hdistinct : ∀ x ∈ list, (x.2.terms.map (·.var)).Nodup) :
    ∃ done, done.Perm (candidates list) ∧ Contended done (known list) := by
  refine known_induction _ ⟨by simp, by simp, by simp, by simp, by simp⟩ ?_
  intro done st pending x others hall h htake
  have hx := mem_of_takeFewest htake
  have hmem : (x.id, x.constraint) ∈ list := mem_of_candidate (hall.mem_iff.mp (List.mem_append_right _ hx))
  exact h.step (place_ne_of_mem hall hx) (hdefined _ hmem) (hdistinct _ hmem)

/-! ## The entries of a selection -/

/-- Some other equality has a primary entry with a variable as its pivot. -/
def Occupied (s : System α) (entries : List PivotEntry) (id : ConstraintId) (v : Variable) : Prop :=
  ∃ e ∈ entries, e.duplicate = false ∧ e.pivot = v ∧ e.constraint ≠ id ∧
    ∃ c, s.constraint? e.constraint = some c ∧ c.relation = .eq

section Entries

variable {s : System α} {ids : List ConstraintId} {vs : List Variable} {limit : Option Nat}

omit [Scalar α] in
theorem constraint_of_candidate (hx : x ∈ candidates (considered s ids limit)) :
    s.constraint? x.id = some x.constraint :=
  (mem_considered (mem_of_candidate hx)).1

theorem Taken.occupied (hn : ids.Nodup) (hdone : done.Perm (candidates (considered s ids limit)))
    (hx : x ∈ candidates (considered s ids limit)) {v : Variable}
    (h : Taken done (known (considered s ids limit)) x.place v) : Occupied s (select s ids vs limit).entries x.id v := by
  obtain ⟨y, hy, hplace, heq, hpivot⟩ := h
  have hy := hdone.mem_iff.mp hy
  obtain ⟨hmem, hprimary⟩ : PivotEntry.primary y.id v ∈ (select s ids vs limit).entries ∧ _ :=
    mem_select.mpr ⟨y, hy, hpivot, rfl⟩
  refine ⟨_, hmem, hprimary, rfl, ?_, y.constraint, constraint_of_candidate hy, heq⟩
  exact fun hid => hplace (place_eq_of_id_eq (nodup_considered hn limit) hy hx hid)

end Entries

end Deterministic

namespace Model

open Deterministic

/-- **Equalities share a pivot only when they have to.**  Take a model after any history, with finite weights, and select
pivots deterministically for a list of constraints without repetitions, any variables and any limit.

* If two equalities have the same primary pivot, then for one of them every variable that weighs something in it is the
  primary pivot of some other equality.
* If a term of a constraint is heavier than that of its primary pivot, then its variable is the primary pivot of another
  equality. -/
theorem pivots_shared_only_if_forced [Scalar.Lawful α] {σ : Type} [Solver α σ] [Solver.Lawful α σ] (i : Nat)
    (x : Option σ) (actions : List (Action α σ)) (ids : List ConstraintId) (vs : List Variable) (limit : Option Nat)
    (hn : ids.Nodup)
    (hfinite : ∀ id c, ((Model.new i x).perform actions).system.constraint? id = some c →
      ∀ t ∈ c.terms, Scalar.isFinite t.coefficient = true) :
    let s := ((Model.new i x).perform actions).system
    let entries := (select s ids vs limit).entries
    (∀ e ∈ entries, ∀ e' ∈ entries, e.duplicate = false → e'.duplicate = false → e.constraint ≠ e'.constraint →
      e.pivot = e'.pivot → ∀ c c', s.constraint? e.constraint = some c → s.constraint? e'.constraint = some c' →
      c.relation = .eq → c'.relation = .eq →
      (∀ t ∈ c.terms, nearZero < Scalar.abs t.coefficient → Occupied s entries e.constraint t.var) ∨
        ∀ t ∈ c'.terms, nearZero < Scalar.abs t.coefficient → Occupied s entries e'.constraint t.var) ∧
    ∀ e ∈ entries, e.duplicate = false → ∀ c, s.constraint? e.constraint = some c → ∀ t ∈ c.terms,
      Scalar.abs (c.coefficientOf e.pivot) < Scalar.abs t.coefficient → Occupied s entries e.constraint t.var := by
  intro s entries
  have hs : s.WellFormed := (perform_sound i x actions).1
  obtain ⟨done, hdone, hcontended⟩ := known_contended
    (fun y hy t ht => Scalar.Lawful.defined_of_isFinite (hfinite y.1 y.2 (mem_considered hy).1 t ht))
    (fun y hy => (hs.fits (mem_considered hy).1).distinct)
  -- each primary entry is the pivot of a candidate, whose constraint it names
  have hentry : ∀ e ∈ entries, e.duplicate = false → ∀ c, s.constraint? e.constraint = some c →
      ∃ y ∈ done, y ∈ candidates (considered s ids limit) ∧ y.id = e.constraint ∧ y.constraint = c ∧
        (y.place, e.pivot) ∈ (known (considered s ids limit)).pivots := by
    intro e he hprimary c hc
    obtain ⟨y, hy, hpivot, heq⟩ := mem_select.mp ⟨he, hprimary⟩
    rw [heq] at hc
    obtain rfl := Option.some.inj ((constraint_of_candidate hy).symm.trans hc)
    exact ⟨y, hdone.mem_iff.mpr hy, hy, by rw [heq]; rfl, rfl, hpivot⟩
  refine ⟨?_, ?_⟩
  · intro e he e' he' hprimary hprimary' hne hsame c c' hc hc' heq heq'
    obtain ⟨y, hy, hyc, hid, rfl, hpivot⟩ := hentry e he hprimary c hc
    obtain ⟨z, hz, hzc, hid', rfl, hpivot'⟩ := hentry e' he' hprimary' c' hc'
    have hplace : y.place ≠ z.place := by
      intro hplace
      have hget := mem_candidates.mp hyc
      rw [hplace, mem_candidates.mp hzc] at hget
      exact hne (by rw [← hid, ← hid', (Prod.mk.inj (Option.some.inj hget)).1])
    rw [← hid, ← hid']
    refine (hcontended.forced y hy z hz hplace heq heq' _ hpivot (hsame ▸ hpivot')).imp ?_ ?_
    · exact fun hall t ht hweight => (hall t ht hweight).occupied hn hdone hyc
    · exact fun hall t ht hweight => (hall t ht hweight).occupied hn hdone hzc
  · intro e he hprimary c hc t ht hlt
    obtain ⟨y, hy, hyc, hid, rfl, hpivot⟩ := hentry e he hprimary c hc
    rw [← hid]
    exact (hcontended.heavier y hy _ hpivot t ht hlt).occupied hn hdone hyc

/-- Three equalities over binary64 and two variables: the second one passes over its heavier term, whose variable the first
one has used up, and nothing is left for the third one, which shares its pivot with the first. -/
theorem pivots_shared_of_overlap :
    let actions : List (Action Float (AnySolver (Engine Float KeyStream))) :=
      [.edit (.addVariable none), .edit (.addVariable none),
        .edit (.add ⟨[⟨1, ⟨0, 0⟩⟩], .eq, .fixed 1, 1, true, none, none⟩),
        .edit (.add ⟨[⟨3, ⟨0, 0⟩⟩, ⟨1, ⟨0, 1⟩⟩], .eq, .fixed 5, 1, true, none, none⟩),
        .edit (.add ⟨[⟨2, ⟨0, 0⟩⟩, ⟨1, ⟨0, 1⟩⟩], .eq, .fixed 4, 1, true, none, none⟩)]
    let s := ((Model.new 0 none).perform actions).system
    let entries := (select s [⟨0⟩, ⟨1⟩, ⟨2⟩] [⟨0, 0⟩, ⟨0, 1⟩] none).entries
    entries = [.primary ⟨0⟩ ⟨0, 0⟩, .primary ⟨1⟩ ⟨0, 1⟩, .primary ⟨2⟩ ⟨0, 0⟩] ∧ Occupied s entries ⟨1⟩ ⟨0, 0⟩ ∧
      (Occupied s entries ⟨0⟩ ⟨0, 0⟩ ∨ Occupied s entries ⟨2⟩ ⟨0, 0⟩ ∧ Occupied s entries ⟨2⟩ ⟨0, 1⟩) := by
  intro actions s entries
  have hfinite : ∀ id c, s.constraint? id = some c → ∀ t ∈ c.terms, Scalar.isFinite t.coefficient = true :=
    System.finite_of_all (by decide +kernel)
  have hentries : entries = [.primary ⟨0⟩ ⟨0, 0⟩, .primary ⟨1⟩ ⟨0, 1⟩, .primary ⟨2⟩ ⟨0, 0⟩] := by decide +kernel
  obtain ⟨hforced, hheavier⟩ := pivots_shared_only_if_forced 0 none actions [⟨0⟩, ⟨1⟩, ⟨2⟩] [⟨0, 0⟩, ⟨0, 1⟩] none
    (by decide) hfinite
  have hmem : ∀ e ∈ [PivotEntry.primary ⟨0⟩ ⟨0, 0⟩, .primary ⟨1⟩ ⟨0, 1⟩, .primary ⟨2⟩ ⟨0, 0⟩], e ∈ entries := by
    rw [hentries]
    exact fun e he => he
  have hfirst : ((s.constraint? ⟨0⟩).any fun c => decide (c.relation = .eq) && c.terms.any fun t =>
      decide (t.var = ⟨0, 0⟩) && decide (nearZero < Scalar.abs t.coefficient)) = true := by decide +kernel
  have hsecond : ((s.constraint? ⟨1⟩).any fun c => c.terms.any fun t => decide (t.var = ⟨0, 0⟩) &&
      decide (Scalar.abs (c.coefficientOf ⟨0, 1⟩) < Scalar.abs t.coefficient)) = true := by decide +kernel
  have hthird : ((s.constraint? ⟨2⟩).any fun c => decide (c.relation = .eq) && (c.terms.any fun t =>
      decide (t.var = ⟨0, 0⟩) && decide (nearZero < Scalar.abs t.coefficient)) && c.terms.any fun t =>
      decide (t.var = ⟨0, 1⟩) && decide (nearZero < Scalar.abs t.coefficient)) = true := by decide +kernel
  obtain ⟨c, hc, hfirst⟩ := (Option.any_eq_true _ _).mp hfirst
  obtain ⟨d, hd, hsecond⟩ := (Option.any_eq_true _ _).mp hsecond
  obtain ⟨c', hc', hthird⟩ := (Option.any_eq_true _ _).mp hthird
  simp only [Bool.and_eq_true, decide_eq_true_eq, List.any_eq_true] at hfirst hsecond hthird
  obtain ⟨heq, t, ht, hvar, hweight⟩ := hfirst
  obtain ⟨u, hu, huvar, hlt⟩ := hsecond
  obtain ⟨⟨heq', v, hv, hvvar, hvweight⟩, w, hw, hwvar, hwweight⟩ := hthird
  refine ⟨hentries, ?_, ?_⟩
  · exact huvar ▸ hheavier _ (hmem (.primary ⟨1⟩ ⟨0, 1⟩) (by decide)) rfl d hd u hu hlt
  · refine (hforced _ (hmem (.primary ⟨0⟩ ⟨0, 0⟩) (by decide)) _ (hmem (.primary ⟨2⟩ ⟨0, 0⟩) (by decide)) rfl rfl
      (by decide) rfl c c' hc hc' heq heq').imp ?_ ?_
    · exact fun hall => hvar ▸ hall t ht hweight
    · exact fun hall => ⟨hvvar ▸ hall v hv hvweight, hwvar ▸ hall w hw hwweight⟩

end Model

end SoftLinear
