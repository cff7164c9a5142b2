import SoftLinear.Proofs.Greedy
import SoftLinear.Proofs.ShareLaws
import SoftLinear.Proofs.Upkeep

/-!
# Triangular systems

Equalities are triangular when they can be enumerated in such a way that each one has exactly one variable that is *new*:
it weighs something in this equality and nothing in the earlier ones.  A deterministic selection then gives each equality
its new variable as pivot, in whichever order the list names them.

The run does not follow the enumeration.  Two facts are enough: the first equality of the enumeration that is still
pending has nothing free but its new variable, so whatever is taken has only one free variable
(`exists_freeCount_le_one`); and the new variable of an equality is used up by nobody else, so that one is it.
-/

namespace SoftLinear

variable {α : Type} [Scalar α]

/-! ## Enumerations -/

instance (c : Constraint α) (v : Variable) : Decidable (c.Bears v) :=
  inferInstanceAs (Decidable (∃ t ∈ c.terms, t.var = v ∧ nearZero < Scalar.abs t.coefficient))

/-- A variable weighs something in the constraint that an identifier names. -/
def System.Bears (s : System α) (id : ConstraintId) (v : Variable) : Prop := ∃ c ∈ s.constraint? id, c.Bears v

/-- A variable weighs something in a constraint and nothing in the earlier ones. -/
def System.IsNew (s : System α) (earlier : List ConstraintId) (id : ConstraintId) (v : Variable) : Prop :=
  s.Bears id v ∧ ∀ other ∈ earlier, ¬ s.Bears other v

instance (s : System α) (id : ConstraintId) (v : Variable) : Decidable (s.Bears id v) :=
  inferInstanceAs (Decidable (∃ c ∈ s.constraint? id, c.Bears v))

instance (s : System α) (earlier : List ConstraintId) (id : ConstraintId) (v : Variable) :
    Decidable (s.IsNew earlier id v) :=
  inferInstanceAs (Decidable (s.Bears id v ∧ ∀ other ∈ earlier, ¬ s.Bears other v))

/-- A new variable is one of a term, so that there is only one can be checked term by term. -/
theorem System.existsUnique_isNew {s : System α} {earlier : List ConstraintId} {id : ConstraintId} {v : Variable}
    (hv : s.IsNew earlier id v)
    (h : ∀ c ∈ s.constraint? id, ∀ t ∈ c.terms, s.IsNew earlier id t.var → t.var = v) :
    ∃! v, s.IsNew earlier id v := by
  refine ⟨v, hv, fun w hw => ?_⟩
  obtain ⟨c, hc, t, ht, rfl, -⟩ := hw.1
  exact h c hc t ht hw

theorem exists_of_mem_take {β : Type} {l : List β} {k : Nat} {x : β} (h : x ∈ l.take k) : ∃ j < k, l[j]? = some x := by
  obtain ⟨j, hj⟩ := List.mem_iff_getElem?.mp h
  rw [List.getElem?_take] at hj
  split at hj
  · exact ⟨j, ‹_›, hj⟩
  · cases hj

/-- A function that gives each constraint of an enumeration its one new variable. -/
structure Enumerates (s : System α) (order : List ConstraintId) (own : ConstraintId → Variable) : Prop where
  isNew : ∀ {k id}, order[k]? = some id → s.IsNew (order.take k) id (own id)
  only : ∀ {k id v}, order[k]? = some id → s.IsNew (order.take k) id v → v = own id

namespace Enumerates

variable {s : System α} {order : List ConstraintId} {own : ConstraintId → Variable}

theorem exists_of_unique (hn : order.Nodup)
    (h : ∀ k id, order[k]? = some id → ∃! v, s.IsNew (order.take k) id v) : ∃ own, Enumerates s order own := by
  have hchoice : ∀ id, ∃ v, ∀ k, order[k]? = some id →
      s.IsNew (order.take k) id v ∧ ∀ w, s.IsNew (order.take k) id w → w = v := by
    intro id
    by_cases hid : id ∈ order
    · obtain ⟨k, hk⟩ := List.mem_iff_getElem?.mp hid
      obtain ⟨v, hv, honly⟩ := h k id hk
      refine ⟨v, fun j hj => ?_⟩
      have hlt : k < order.length := (List.getElem?_eq_some_iff.mp hk).1
      obtain rfl : k = j := (List.getElem?_inj hlt hn).mp (hk.trans hj.symm)
      exact ⟨hv, honly⟩
    · exact ⟨default, fun k hk => absurd (List.mem_of_getElem? hk) hid⟩
  choose own hown using hchoice
  exact ⟨own, fun hk => (hown _ _ hk).1, fun hk hv => (hown _ _ hk).2 _ hv⟩

theorem bears (h : Enumerates s order own) {id : ConstraintId} (hid : id ∈ order) : s.Bears id (own id) := by
  obtain ⟨k, hk⟩ := List.mem_iff_getElem?.mp hid
  exact (h.isNew hk).1

theorem inj (h : Enumerates s order own) {id other : ConstraintId} (hid : id ∈ order) (hother : other ∈ order)
    (hsame : own id = own other) : id = other := by
  have key : ∀ {j k : Nat} {a b : ConstraintId}, order[j]? = some a → order[k]? = some b → own a = own b → ¬ j < k := by
    intro j k a b ha hb hab hlt
    have hmem : a ∈ order.take k := List.mem_iff_getElem?.mpr ⟨j, by rw [List.getElem?_take_of_lt hlt, ha]⟩
    exact (h.isNew hb).2 a hmem (hab ▸ (h.isNew ha).1)
  obtain ⟨j, hj⟩ := List.mem_iff_getElem?.mp hid
  obtain ⟨k, hk⟩ := List.mem_iff_getElem?.mp hother
  have hjk := key hj hk hsame
  have hkj := key hk hj hsame.symm
  obtain rfl : j = k := by omega
  exact Option.some.inj (hj.symm.trans hk)

/-- A variable that weighs something in a constraint is its new one or that of an earlier constraint. -/
theorem eq_own_of_bears (h : Enumerates s order own) {k : Nat} {id : ConstraintId} (hk : order[k]? = some id)
    {v : Variable} (hv : s.Bears id v) : v = own id ∨ ∃ other ∈ order.take k, v = own other := by
  induction k using Nat.strong_induction_on generalizing id with
  | _ k ih =>
    by_cases hnew : ∀ other ∈ order.take k, ¬ s.Bears other v
    · exact .inl (h.only hk ⟨hv, hnew⟩)
    · simp only [not_forall, not_not] at hnew
      obtain ⟨other, hother, hbears⟩ := hnew
      obtain ⟨j, hlt, hj⟩ := exists_of_mem_take hother
      refine .inr ?_
      rcases ih j hlt hj hbears with rfl | ⟨before, hbefore, hsame⟩
      · exact ⟨other, hother, rfl⟩
      · exact ⟨before, List.take_subset_take_left order (le_of_lt hlt) hbefore, hsame⟩

end Enumerates

/-! ## Counting free variables -/

namespace Deterministic

variable {assigned : List Variable} {c : Constraint α} {st : State α} {done pending : List (Candidate α)}
  {list : List (ConstraintId × Constraint α)} {s : System α} {ids order : List ConstraintId}
  {own : ConstraintId → Variable}

theorem freeCount_le_one (hdistinct : (c.terms.map (·.var)).Nodup) {w : Variable}
    (h : ∀ v, c.Bears v → v ∈ assigned ∨ v = w) : freeCount assigned c ≤ 1 := by
  have hone : (c.terms.map (·.var)).count w ≤ 1 := List.nodup_iff_count_le_one.mp hdistinct w
  rw [List.count, List.countP_map] at hone
  refine le_trans (List.countP_mono_left fun t ht hfree => ?_) hone
  simp only [Bool.and_eq_true, decide_eq_true_eq, Bool.not_eq_true', List.contains_eq_mem,
    decide_eq_false_iff_not] at hfree
  have hvar := (h t.var ⟨t, ht, rfl, hfree.1⟩).resolve_left hfree.2
  simp [hvar]

theorem eq_of_freeCount_le_one (h : freeCount assigned c ≤ 1) {v w : Variable} (hv : c.Bears v) (hw : c.Bears w)
    (hvfree : v ∉ assigned) (hwfree : w ∉ assigned) : v = w := by
  obtain ⟨t, ht, rfl, htweight⟩ := hv
  obtain ⟨u, hu, rfl, huweight⟩ := hw
  let counts : Term α → Bool := fun t => nearZero < Scalar.abs t.coefficient && !assigned.contains t.var
  have htmem : t ∈ c.terms.filter counts := List.mem_filter.mpr ⟨ht, by simp [counts, htweight, hvfree]⟩
  have humem : u ∈ c.terms.filter counts := List.mem_filter.mpr ⟨hu, by simp [counts, huweight, hwfree]⟩
  have hlength : (c.terms.filter counts).length ≤ 1 := by rwa [← List.countP_eq_length_filter]
  obtain ⟨x, hx⟩ := List.length_eq_one_iff.mp (le_antisymm hlength (List.length_pos_of_mem htmem))
  rw [hx] at htmem humem
  rw [List.mem_singleton.mp htmem, List.mem_singleton.mp humem]

/-! ## The run -/

/-- Every candidate dealt with has its new variable as pivot, and these variables are used up. -/
structure Solved (own : ConstraintId → Variable) (done : List (Candidate α)) (st : State α) : Prop where
  assigned : ∀ v, v ∈ st.assigned ↔ ∃ x ∈ done, v = own x.id
  pivots : ∀ p, p ∈ st.pivots ↔ ∃ x ∈ done, p = (x.place, own x.id)

/-- What the candidates have to provide: they are the equalities of an enumeration, and none of their weights is almost
zero without being zero. -/
structure Fitting (s : System α) (order : List ConstraintId) (all : List (Candidate α)) : Prop where
  named : ∀ x ∈ all, x.id ∈ order ∧ s.constraint? x.id = some x.constraint
  present : ∀ id ∈ order, ∃ x ∈ all, x.id = id
  equal : ∀ x ∈ all, x.constraint.relation = .eq
  weights : ∀ x ∈ all, ∀ t ∈ x.constraint.terms, (t.coefficient == 0) = true ∨ nearZero < Scalar.abs t.coefficient
  distinct : ∀ x ∈ all, (x.constraint.terms.map (·.var)).Nodup

variable {all : List (Candidate α)} {x : Candidate α}

theorem Fitting.bears_iff (hall : Fitting s order all) (hx : x ∈ all) {v : Variable} :
    s.Bears x.id v ↔ x.constraint.Bears v := by
  unfold System.Bears
  rw [(hall.named x hx).2]
  simp

theorem Fitting.defined [Scalar.Divisible α] (hall : Fitting s order all) (hx : x ∈ all) : x.constraint.Defined := by
  intro t ht
  rcases hall.weights x hx t ht with hzero | hweight
  · exact Scalar.Divisible.defined_of_zero hzero
  · rw [← Scalar.Lawful.isNaN_abs]
    exact (Scalar.Ordered.defined_of_lt hweight).2

/-- **As long as something is pending, something has at most one free variable**: the first of what is pending in the
enumeration. -/
theorem exists_freeCount_le_one (h : Enumerates s order own) (hall : Fitting s order all)
    (hperm : (done ++ pending).Perm all) (hsolved : Solved own done st) (hpending : pending ≠ []) :
    ∃ y ∈ pending, freeCount st.assigned y.constraint ≤ 1 := by
  have hmem : ∀ y ∈ pending, y ∈ all := fun y hy => hperm.mem_iff.mp (List.mem_append_right _ hy)
  have hexists : ∃ k : Nat, ∃ y ∈ pending, order[k]? = some y.id := by
    obtain ⟨y, hy⟩ := List.exists_mem_of_ne_nil _ hpending
    obtain ⟨k, hk⟩ := List.mem_iff_getElem?.mp (hall.named y (hmem y hy)).1
    exact ⟨k, y, hy, hk⟩
  classical
  obtain ⟨y, hy, hk⟩ := Nat.find_spec hexists
  refine ⟨y, hy, freeCount_le_one (w := own y.id) (hall.distinct y (hmem y hy)) fun v hv => ?_⟩
  rcases h.eq_own_of_bears hk ((hall.bears_iff (hmem y hy)).mpr hv) with hown | ⟨other, hother, rfl⟩
  · exact .inr hown
  · -- what comes earlier in the enumeration is not pending any more
    left
    obtain ⟨j, hlt, hj⟩ := exists_of_mem_take hother
    obtain ⟨z, hz, rfl⟩ := hall.present other (List.mem_of_getElem? hj)
    rcases List.mem_append.mp (hperm.mem_iff.mpr hz) with hz | hz
    · exact (hsolved.assigned _).mpr ⟨z, hz, rfl⟩
    · exact absurd ⟨z, hz, hj⟩ (Nat.find_min hexists hlt)

/-- **Whatever is taken gets its new variable.** -/
theorem Solved.step [Scalar.Divisible α] (hsolved : Solved own done st) (h : Enumerates s order own)
    (hall : Fitting s order all) (hn : (all.map (·.id)).Nodup) (hperm : (done ++ pending).Perm all)
    {others : List (Candidate α)}
    (htake : takeFewest (fun y => freeCount st.assigned y.constraint) pending = some (x, others)) :
    Solved own (x :: done) (step st x) := by
  have hx := mem_of_takeFewest htake
  have hxall : x ∈ all := hperm.mem_iff.mp (List.mem_append_right _ hx)
  obtain ⟨y, hy, hcount⟩ := exists_freeCount_le_one h hall hperm hsolved (List.ne_nil_of_mem hx)
  -- some candidate has at most one free variable, and what is taken has no more
  have hone : freeCount st.assigned x.constraint ≤ 1 := le_trans (takeFewest_le htake y hy) hcount
  have hown : x.constraint.Bears (own x.id) := (hall.bears_iff hxall).mp (h.bears (hall.named x hxall).1)
  -- new variables are distinct, so no candidate dealt with has used this one up
  have hfree : own x.id ∉ st.assigned := by
    intro hused
    obtain ⟨z, hz, hsame⟩ := (hsolved.assigned _).mp hused
    have hzall : z ∈ all := hperm.mem_iff.mp (List.mem_append_left _ hz)
    have hid := h.inj (hall.named x hxall).1 (hall.named z hzall).1 hsame
    have hids : ((done ++ pending).map (·.id)).Nodup := ((hperm.map _).nodup_iff).mpr hn
    rw [List.map_append, List.nodup_append] at hids
    exact hids.2.2 _ (List.mem_map.mpr ⟨z, hz, rfl⟩) _ (List.mem_map.mpr ⟨x, hx, rfl⟩) hid.symm
  obtain ⟨t, ht⟩ : ∃ t, chosen? st.assigned x.constraint = some t :=
    exists_pivotAt (hall.defined hxall) hown.isHeavy st.assigned
  have hvar : t.var = own x.id := by
    obtain ⟨hmem, hweight, -, hforced⟩ := chosen_spec (hall.defined hxall) ht
    refine eq_of_freeCount_le_one hone ⟨t, hmem, rfl, hweight⟩ hown (fun hused => ?_) hfree
    obtain ⟨u, hu, huvar, huweight⟩ := hown
    exact hfree (huvar ▸ hforced hused u hu huweight)
  refine ⟨fun v => ?_, fun p => ?_⟩
  · rw [mem_step_assigned, hsolved.assigned]
    simp [ht, hall.equal x hxall, hvar]
  · rw [mem_step_pivots, hsolved.pivots]
    simp [ht, hvar]

/-! ## The entries of a selection -/

theorem known_solved [Scalar.Divisible α] (h : Enumerates s order own) (hall : Fitting s order (candidates list))
    (hn : (list.map (·.1)).Nodup) :
    ∃ done, done.Perm (candidates list) ∧ Solved own done (known list) := by
  have hids : ((candidates list).map (·.id)).Nodup := by
    refine List.Nodup.map_on (fun a ha b hb hab => ?_) (List.Nodup.of_map _ (nodup_places list))
    exact List.inj_on_of_nodup_map (nodup_places list) ha hb (place_eq_of_id_eq hn ha hb hab)
  refine known_induction _ ⟨by simp, by simp⟩ fun hperm hsolved htake => ?_
  exact hsolved.step h hall hids hperm htake

theorem primaries_of_solved (hdone : done.Perm (candidates list)) (hsolved : Solved own done (known list)) :
    primaries list = (list.map (·.1)).map fun id => .primary id (own id) := by
  have hplaced : ∀ x ∈ list.zipIdx, ((known list).pivots.find? (·.1 = x.2)).map (fun p => PivotEntry.primary x.1.1 p.2) =
      some (.primary x.1.1 (own x.1.1)) := by
    intro x hx
    have hcandidate : (⟨x.2, x.1.1, x.1.2⟩ : Candidate α) ∈ candidates list :=
      mem_candidates.mpr (List.mem_zipIdx_iff_getElem?.mp hx)
    have hpivot : (x.2, own x.1.1) ∈ (known list).pivots :=
      (hsolved.pivots _).mpr ⟨_, hdone.mem_iff.mpr hcandidate, rfl⟩
    rw [find_of_nodup Prod.fst (nodup_pivots list) hpivot]
    rfl
  calc primaries list = list.zipIdx.filterMap fun x => some (.primary x.1.1 (own x.1.1)) :=
        List.filterMap_congr hplaced
    _ = list.zipIdx.map fun x => .primary x.1.1 (own x.1.1) := by rw [← List.filterMap_eq_map]; rfl
    _ = (list.map (·.1)).map fun id => .primary id (own id) := by
        rw [List.map_map]
        exact map_zipIdx_fst (fun x => PivotEntry.primary x.1 (own x.1)) list

/-- A share that was noted belongs to a term that weighs something, so its variable is the new one of some equality. -/
theorem Fitting.owned [Scalar.Divisible α] (h : Enumerates s order own) (hall : Fitting s order (candidates list)) :
    ∀ y ∈ (known list).shares, ∃ id ∈ order, y.1 = own id := by
  intro y hy
  obtain ⟨x, hx, -, i, t, ht, hvar, hshare⟩ := mem_known_shares hy
  have hmem := List.mem_of_getElem? ht
  have hbears : s.Bears x.id y.1 := by
    refine (hall.bears_iff hx).mpr ⟨t, hmem, hvar.symm, (hall.weights x hx t hmem).resolve_left fun hzero => ?_⟩
    exact hshare (Constraint.dominance_le_of_zero ht hzero)
  have hid := (hall.named x hx).1
  obtain ⟨k, hk⟩ := List.mem_iff_getElem?.mp hid
  rcases h.eq_own_of_bears hk hbears with hown | ⟨other, hother, hown⟩
  · exact ⟨x.id, hid, hown⟩
  · exact ⟨other, List.mem_of_mem_take hother, hown⟩

theorem adoptions_eq_nil (h : ∀ y ∈ (known list).shares, ∃ e ∈ primaries list, e.pivot = y.1) (vs : List Variable) :
    adoptions list vs = [] := by
  unfold adoptions
  rw [List.filterMap_eq_nil_iff]
  intro v hv
  rw [Option.map_eq_none_iff, Option.eq_none_iff_forall_ne_some]
  intro source hsource
  obtain ⟨y, hy, rfl, -⟩ := source_spec hsource
  obtain ⟨e, he, hpivot⟩ := h y hy
  have horphan := List.all_eq_true.mp (List.mem_filter.mp hv).2 e he
  simp [hpivot] at horphan

end Deterministic

omit [Scalar α] in
theorem considered_eq_self {s : System α} {ids : List ConstraintId} {limit : Option Nat}
    (hon : ∀ id ∈ ids, s.flag? id = some true) (hlimit : ∀ n ∈ limit, ids.length ≤ n) :
    (considered s ids limit).map (·.1) = ids := by
  have hlive : (s.live ids).map (·.1) = ids := by
    show s.liveIds ids = ids
    rw [System.liveIds_eq_filter, List.filter_eq_self]
    exact fun id hid => by simp [hon id hid]
  unfold considered
  split
  · rename_i n
    rw [List.map_take, hlive, List.take_of_length_le (hlimit n rfl)]
  · exact hlive

/-- The candidates of a list of equalities that are all considered. -/
theorem Deterministic.fitting_of_considered {s : System α} {ids order : List ConstraintId} {limit : Option Nat}
    (hs : s.WellFormed) (hnames : (considered s ids limit).map (·.1) = ids) (horder : order.Perm ids)
    (hequal : ∀ id ∈ ids, ∀ c, s.constraint? id = some c → c.relation = .eq ∧
      ∀ t ∈ c.terms, (t.coefficient == 0) = true ∨ nearZero < Scalar.abs t.coefficient) :
    Fitting s order (candidates (considered s ids limit)) := by
  have hmem : ∀ y ∈ candidates (considered s ids limit), y.id ∈ ids ∧ s.constraint? y.id = some y.constraint := by
    intro y hy
    have hconsidered := mem_of_candidate hy
    exact ⟨hnames ▸ List.mem_map.mpr ⟨_, hconsidered, rfl⟩, (mem_considered hconsidered).1⟩
  refine ⟨fun y hy => ?_, fun id hid => ?_, fun y hy => ?_, fun y hy => ?_, fun y hy => ?_⟩
  · exact ⟨horder.mem_iff.mpr (hmem y hy).1, (hmem y hy).2⟩
  · obtain ⟨y, hy, rfl⟩ := List.mem_map.mp (hnames.symm ▸ horder.mem_iff.mp hid)
    obtain ⟨k, hk⟩ := List.mem_iff_getElem?.mp hy
    exact ⟨⟨k, y.1, y.2⟩, mem_candidates.mpr hk, rfl⟩
  · exact (hequal y.id (hmem y hy).1 _ (hmem y hy).2).1
  · exact (hequal y.id (hmem y hy).1 _ (hmem y hy).2).2
  · exact (hs.fits (hmem y hy).2).distinct

namespace Model

open Deterministic

/-- **Deterministic selection solves triangular systems in any order of the list.**  Take a model after any history and a
list of enabled equalities without repetitions, in which each weight is zero or weighs something, with an enumeration in
which each equality has exactly one new variable.  Whatever the order of the list is, whichever variables are asked for,
and with any limit that does not cut the list, a deterministic selection returns one primary entry for each equality, with
its new variable as pivot.  So all pivots are distinct, and there are no duplicates. -/
theorem select_triangular [Scalar.Divisible α] {σ : Type} [Solver α σ] [Solver.Lawful α σ] (i : Nat) (x : Option σ)
    (actions : List (Action α σ)) (ids order : List ConstraintId) (vs : List Variable) (limit : Option Nat)
    (hn : ids.Nodup) (horder : order.Perm ids) (hlimit : ∀ n ∈ limit, ids.length ≤ n)
    (hequal : ∀ id ∈ ids, ∃ c, ((Model.new i x).perform actions).system.constraint? id = some c ∧ c.enabled = true ∧
      c.relation = .eq ∧ ∀ t ∈ c.terms, (t.coefficient == 0) = true ∨ nearZero < Scalar.abs t.coefficient)
    (hnew : ∀ k id, order[k]? = some id →
      ∃! v, ((Model.new i x).perform actions).system.IsNew (order.take k) id v) :
    let s := ((Model.new i x).perform actions).system
    let selection := select s ids vs limit
    ∃ own : ConstraintId → Variable, (∀ k id, order[k]? = some id → s.IsNew (order.take k) id (own id)) ∧
      selection.entries = ids.map (fun id => .primary id (own id)) ∧ (ids.map own).Nodup ∧ selection.duplicates = 0 := by
  intro s selection
  have hs : s.WellFormed := (perform_sound i x actions).1
  obtain ⟨own, hown⟩ := Enumerates.exists_of_unique (horder.nodup_iff.mpr hn) hnew
  have hnames : (considered s ids limit).map (·.1) = ids := by
    refine considered_eq_self (fun id hid => ?_) hlimit
    obtain ⟨c, hc, hon, -⟩ := hequal id hid
    rw [System.flag?, hc, Option.map_some, hon]
  have hfitting : Fitting s order (candidates (considered s ids limit)) :=
    fitting_of_considered hs hnames horder fun id hid c hc => by
      obtain ⟨d, hd, -, hrest⟩ := hequal id hid
      obtain rfl := Option.some.inj (hc.symm.trans hd)
      exact hrest
  obtain ⟨done, hdone, hsolved⟩ := known_solved hown hfitting (hnames.symm ▸ hn)
  have hprimaries : primaries (considered s ids limit) = ids.map fun id => .primary id (own id) := by
    rw [primaries_of_solved hdone hsolved, hnames]
  -- a variable with a share is the own one of some equality, so none is left for a duplicate
  have hnobody : adoptions (considered s ids limit) vs = [] := by
    refine adoptions_eq_nil (fun y hy => ?_) vs
    obtain ⟨id, hid, h⟩ := hfitting.owned hown y hy
    exact ⟨.primary id (own id), hprimaries ▸ List.mem_map.mpr ⟨id, horder.mem_iff.mp hid, rfl⟩, h.symm⟩
  refine ⟨own, fun k id hk => hown.isNew hk, ?_, ?_, ?_⟩
  · show (select s ids vs limit).entries = _
    rw [select_entries, hnobody, List.foldl_nil, hprimaries]
  · exact List.Nodup.map_on (fun a ha b hb => hown.inj (horder.mem_iff.mpr ha) (horder.mem_iff.mpr hb)) hn
  · exact congrArg List.length hnobody

/-- Three equalities over binary64, listed in the opposite of the order in which they can be solved; one of them names a
variable with weight zero. -/
theorem select_triangular_of_reverse :
    let actions : List (Action Float (AnySolver (Engine Float KeyStream))) :=
      [.edit (.addVariable none), .edit (.addVariable none), .edit (.addVariable none),
        .edit (.add ⟨[⟨5, ⟨0, 0⟩⟩, ⟨3, ⟨0, 1⟩⟩, ⟨1, ⟨0, 2⟩⟩], .eq, .fixed 6, 1, true, none, none⟩),
        .edit (.add ⟨[⟨5, ⟨0, 0⟩⟩, ⟨3, ⟨0, 1⟩⟩, ⟨0, ⟨0, 2⟩⟩], .eq, .fixed 3, 1, true, none, none⟩),
        .edit (.add ⟨[⟨4, ⟨0, 0⟩⟩], .eq, .fixed 4, 1, true, none, none⟩)]
    let s := ((Model.new 0 none).perform actions).system
    let selection := select s [⟨0⟩, ⟨1⟩, ⟨2⟩] s.attached none
    (∀ k id, [⟨2⟩, ⟨1⟩, ⟨0⟩][k]? = some id → ∃! v, s.IsNew ([⟨2⟩, ⟨1⟩, ⟨0⟩].take k) id v) ∧
      (selection.entries.map (·.pivot)).Nodup ∧ selection.entries.map (·.constraint) = [⟨0⟩, ⟨1⟩, ⟨2⟩] ∧
      selection.duplicates = 0 := by
  intro actions s selection
  have hnew : ∀ k id, [⟨2⟩, ⟨1⟩, ⟨0⟩][k]? = some id → ∃! v, s.IsNew ([⟨2⟩, ⟨1⟩, ⟨0⟩].take k) id v := by
    intro k id hk
    match k, hk with
    | 0, hk =>
      obtain rfl := Option.some.inj hk
      exact System.existsUnique_isNew (v := ⟨0, 0⟩) (by decide +kernel) (by decide +kernel)
    | 1, hk =>
      obtain rfl := Option.some.inj hk
      exact System.existsUnique_isNew (v := ⟨0, 1⟩) (by decide +kernel) (by decide +kernel)
    | 2, hk =>
      obtain rfl := Option.some.inj hk
      exact System.existsUnique_isNew (v := ⟨0, 2⟩) (by decide +kernel) (by decide +kernel)
    | k + 3, hk => cases hk
  have hequal : ∀ id ∈ [⟨0⟩, ⟨1⟩, ⟨2⟩], ∃ c ∈ s.constraint? id, c.enabled = true ∧ c.relation = .eq ∧
      ∀ t ∈ c.terms, (t.coefficient == 0) = true ∨ nearZero < Scalar.abs t.coefficient := by decide +kernel
  obtain ⟨own, hown, hentries, hdistinct, hnone⟩ := select_triangular 0 none actions [⟨0⟩, ⟨1⟩, ⟨2⟩] [⟨2⟩, ⟨1⟩, ⟨0⟩]
    s.attached none (by decide) (by decide) nofun (fun id hid => hequal id hid) hnew
  replace hentries : selection.entries = [⟨0⟩, ⟨1⟩, ⟨2⟩].map fun id => .primary id (own id) := hentries
  refine ⟨hnew, ?_, ?_, hnone⟩
  · rw [hentries, List.map_map]
    exact hdistinct
  · rw [hentries]
    rfl

end Model

end SoftLinear
