import SoftLinear.Proofs.Selection

/-!
# The greedy run

A deterministic selection deals with its candidates one by one, in an order that depends on the choices made so far.
What is said about its result is therefore proved for one step, of whichever candidate is taken, and then holds at the end
for some order of all candidates (`known_induction`).

The rest of the file reads the result: the primary entries of a selection are the pivots that the run has noted
(`mem_primaries`), and the duplicates that are put in leave them alone (`filter_primary_select`).
-/

namespace SoftLinear

theorem find_of_nodup {β κ : Type} [DecidableEq κ] (key : β → κ) {l : List β} (hn : (l.map key).Nodup) {x : β}
    (hx : x ∈ l) : l.find? (key · = key x) = some x := by
  cases hfind : l.find? (key · = key x) with
  | none => exact absurd (List.find?_eq_none.mp hfind x hx) (by simp)
  | some y =>
    have hy : key y = key x := by simpa using List.find?_some hfind
    rw [List.inj_on_of_nodup_map hn (List.mem_of_find?_eq_some hfind) hx hy]

theorem map_zipIdx_fst {β κ : Type} (f : β → κ) (l : List β) : l.zipIdx.map (fun x => f x.1) = l.map f := by
  show l.zipIdx.map (f ∘ Prod.fst) = _
  rw [← List.map_map, List.zipIdx_map_fst]

namespace PivotEntry

@[simp] theorem filter_primary_insertDuplicate (source : ConstraintId) (v : Variable) (entries : List PivotEntry) :
    (insertDuplicate source v entries).filter (!·.duplicate) = entries.filter (!·.duplicate) := by
  induction entries with
  | nil => rfl
  | cons e rest ih =>
    unfold insertDuplicate
    split
    · simp [List.filter_cons]
    · rw [List.filter_cons, List.filter_cons, ih]

theorem foldl_insertDuplicate_perm (l : List (ConstraintId × Variable)) (entries : List PivotEntry) :
    (l.foldl (fun es x => insertDuplicate x.1 x.2 es) entries).Perm (l.map (fun x => ⟨x.1, x.2, true⟩) ++ entries) := by
  induction l generalizing entries with
  | nil => exact .refl _
  | cons x l ih =>
    exact (ih _).trans (((insertDuplicate_perm x.1 x.2 entries).append_left _).trans List.perm_middle)

end PivotEntry

namespace Deterministic

variable {α : Type} [Scalar α] {st : State α} {done pending : List (Candidate α)}
  {list : List (ConstraintId × Constraint α)} {s : System α} {ids : List ConstraintId} {vs : List Variable}
  {c : Constraint α} {assigned : List Variable} {t : Term α}

/-! ## The choice of a pivot -/

/-- The term that is chosen as pivot when some variables are used up. -/
def chosen? (assigned : List Variable) (c : Constraint α) : Option (Term α) :=
  (pivotAt? assigned c).bind (c.terms[·]?)

theorem mem_free [Scalar.Lawful α] (hdefined : c.Defined) {y : Nat × α} : y ∈ free assigned c ↔
    ∃ t, c.terms[y.1]? = some t ∧ y.2 = Scalar.abs t.coefficient ∧ nearZero < Scalar.abs t.coefficient ∧
      t.var ∉ assigned := by
  have hnear : Scalar.isNaN (nearZero : α) = false := (Scalar.Ordered.defined_of_lt Scalar.Lawful.nearZero_pos).2
  unfold free
  rw [List.mem_map]
  constructor
  · rintro ⟨⟨t, i⟩, hmem, rfl⟩
    obtain ⟨hget, hfree⟩ := List.mem_filter.mp hmem
    have hget := List.mem_zipIdx_iff_getElem?.mp hget
    simp only [Bool.and_eq_true, Bool.not_eq_true', decide_eq_false_iff_not, List.contains_eq_mem] at hfree
    refine ⟨t, hget, rfl, Scalar.Ordered.lt_of_not_le ?_ hnear hfree.1, hfree.2⟩
    exact (Scalar.Lawful.isNaN_abs _).trans (hdefined t (List.mem_of_getElem? hget))
  · rintro ⟨t, hget, habs, hweight, hfree⟩
    refine ⟨(t, y.1), List.mem_filter.mpr ⟨List.mem_zipIdx_iff_getElem?.mpr hget, ?_⟩, Prod.ext rfl habs.symm⟩
    simp [Scalar.Lawful.not_le_of_lt hweight, hfree]

/-- **How a pivot is chosen**: it weighs something, heavier terms have variables that are used up, and if its own variable
is used up, then so is every variable that weighs something. -/
theorem chosen_spec [Scalar.Lawful α] (hdefined : c.Defined) (h : chosen? assigned c = some t) :
    t ∈ c.terms ∧ nearZero < Scalar.abs t.coefficient ∧
      (∀ u ∈ c.terms, Scalar.abs t.coefficient < Scalar.abs u.coefficient → u.var ∈ assigned) ∧
      (t.var ∈ assigned → ∀ u ∈ c.terms, nearZero < Scalar.abs u.coefficient → u.var ∈ assigned) := by
  obtain ⟨i, hi, hget⟩ := Option.bind_eq_some_iff.mp h
  have hfree : ∀ u ∈ c.terms, nearZero < Scalar.abs u.coefficient → u.var ∉ assigned →
      ∃ k, (k, Scalar.abs u.coefficient) ∈ free assigned c := by
    intro u hu hweight hnot
    obtain ⟨k, hk⟩ := List.mem_iff_getElem?.mp hu
    exact ⟨k, (mem_free hdefined).mpr ⟨u, hk, rfl, hweight, hnot⟩⟩
  have hnan : ∀ y ∈ free assigned c, Scalar.isNaN y.2 = false := by
    intro y hy
    obtain ⟨u, -, habs, hweight, -⟩ := (mem_free hdefined).mp hy
    rw [habs]
    exact (Scalar.Ordered.defined_of_lt hweight).2
  unfold pivotAt? at hi
  split at hi
  · rename_i k magnitude hk
    obtain rfl := Option.some.inj hi
    obtain ⟨u, hu, habs, hweight, hnot⟩ := (mem_free hdefined).mp (heaviest_mem hk)
    obtain rfl := Option.some.inj (hu.symm.trans hget)
    refine ⟨List.mem_of_getElem? hget, hweight, fun w hw hlt => ?_, fun hused => absurd hused hnot⟩
    -- a heavier term that is free would have been chosen
    by_contra hother
    obtain ⟨j, hj⟩ := hfree w hw (Scalar.Lawful.lt_trans hweight hlt) hother
    have hheavier := lt_heaviest hnan hk _ hj hlt
    rw [habs] at hheavier
    exact Scalar.Lawful.lt_irrefl _ hheavier
  · rename_i hnone
    -- no term is free, so the fallback was taken
    have hused : ∀ u ∈ c.terms, nearZero < Scalar.abs u.coefficient → u.var ∈ assigned := by
      intro u hu hweight
      by_contra hnot
      obtain ⟨k, hk⟩ := hfree u hu hweight hnot
      obtain ⟨y, hy⟩ := exists_heaviest hk
      rw [hnone] at hy
      cases hy
    have hweight : nearZero < Scalar.abs t.coefficient := by
      obtain ⟨-, hweight⟩ := Option.filter_eq_some_iff.mp hi
      rw [hget] at hweight
      exact of_decide_eq_true hweight
    refine ⟨List.mem_of_getElem? hget, hweight, fun u hu hlt => ?_, fun _ => hused⟩
    exact hused u hu (Scalar.Lawful.lt_trans hweight hlt)

/-! ## Steps -/

theorem takeFewest_le {β : Type} {count : β → Nat} {l : List β} {x : β} {others : List β}
    (h : takeFewest count l = some (x, others)) : ∀ y ∈ l, count x ≤ count y := by
  induction l generalizing x others with
  | nil => cases h
  | cons a rest ih =>
    unfold takeFewest at h
    split at h
    · rename_i y ys hy
      split at h
      · rename_i hlt
        obtain ⟨rfl, rfl⟩ := Prod.mk.inj (Option.some.inj h)
        exact List.forall_mem_cons.mpr ⟨le_of_lt hlt, ih hy⟩
      · rename_i hge
        obtain ⟨rfl, rfl⟩ := Prod.mk.inj (Option.some.inj h)
        exact List.forall_mem_cons.mpr ⟨le_rfl, fun z hz => le_trans (not_lt.mp hge) (ih hy z hz)⟩
    · rename_i hnone
      obtain ⟨rfl, rfl⟩ := Prod.mk.inj (Option.some.inj h)
      simp [takeFewest_eq_none hnone]

/-- **What a step does**: it notes the shares, and if there is a pivot to choose, it notes that and uses it up when the
constraint is an equality. -/
theorem step_cases (st : State α) (x : Candidate α) :
    (∃ t, chosen? st.assigned x.constraint = some t ∧ step st x =
      ⟨if x.constraint.relation = .eq then t.var :: st.assigned else st.assigned, (x.place, t.var) :: st.pivots,
        st.shares.noteAll x.id x.constraint⟩) ∨
    (chosen? st.assigned x.constraint = none ∧
      step st x = ⟨st.assigned, st.pivots, st.shares.noteAll x.id x.constraint⟩) := by
  unfold step chosen?
  dsimp only
  cases (pivotAt? st.assigned x.constraint).bind (x.constraint.terms[·]?) with
  | some t => exact .inl ⟨t, rfl, rfl⟩
  | none => exact .inr ⟨rfl, rfl⟩

theorem mem_step_pivots {x : Candidate α} {p : Nat × Variable} : p ∈ (step st x).pivots ↔
    (∃ t, chosen? st.assigned x.constraint = some t ∧ p = (x.place, t.var)) ∨ p ∈ st.pivots := by
  rcases step_cases st x with ⟨t, ht, h⟩ | ⟨hnone, h⟩
  · simp [h, ht]
  · simp [h, hnone]

theorem mem_step_assigned {x : Candidate α} {v : Variable} : v ∈ (step st x).assigned ↔
    (∃ t, chosen? st.assigned x.constraint = some t ∧ x.constraint.relation = .eq ∧ v = t.var) ∨ v ∈ st.assigned := by
  rcases step_cases st x with ⟨t, ht, h⟩ | ⟨hnone, h⟩
  · by_cases heq : x.constraint.relation = .eq
    · simp [h, ht, heq]
    · simp [h, heq]
  · simp [h, hnone]

@[simp] theorem step_shares (st : State α) (x : Candidate α) :
    (step st x).shares = st.shares.noteAll x.id x.constraint := by
  rcases step_cases st x with ⟨t, -, h⟩ | ⟨-, h⟩
  · rw [h]
  · rw [h]

/-! ## Shares -/

/-- What noting the shares of a constraint brings in belongs to a term whose share does not count as zero. -/
theorem mem_noteAll {shares : Shares α} {id : ConstraintId} {y : Variable × α × ConstraintId}
    (h : y ∈ shares.noteAll id c) :
    y ∈ shares ∨ y.2.2 = id ∧ ∃ i t, c.terms[i]? = some t ∧ y.1 = t.var ∧ ¬ c.dominance i ≤ nearZero := by
  have key : ∀ (l : List (Term α × Nat)) (shares : Shares α), y ∈ l.foldl (Shares.noteTerm id c) shares →
      y ∈ shares ∨ y.2.2 = id ∧ ∃ x ∈ l, y.1 = x.1.var ∧ ¬ c.dominance x.2 ≤ nearZero := by
    intro l
    induction l with
    | nil => exact fun _ hy => .inl hy
    | cons x l ih =>
      intro shares hy
      rcases ih _ hy with hy | ⟨hid, z, hz, hrest⟩
      · unfold Shares.noteTerm at hy
        split at hy
        · exact .inl hy
        · rename_i hshare
          rcases mem_note hy with rfl | hy
          · exact .inr ⟨rfl, x, List.mem_cons_self, rfl, hshare⟩
          · exact .inl hy
      · exact .inr ⟨hid, z, List.mem_cons_of_mem _ hz, hrest⟩
  refine (key c.terms.zipIdx shares h).imp_right fun ⟨hid, x, hx, hvar, hshare⟩ => ?_
  exact ⟨hid, x.2, x.1, List.mem_zipIdx_iff_getElem?.mp hx, hvar, hshare⟩

/-! ## Runs -/

/-- What every step keeps holds in the end: of some order of all candidates, the latest first. -/
theorem run_induction {all : List (Candidate α)} {motive : List (Candidate α) → State α → Prop}
    (hstep : ∀ {done st pending x others}, (done ++ pending).Perm all → motive done st →
      takeFewest (fun y => freeCount st.assigned y.constraint) pending = some (x, others) →
      motive (x :: done) (step st x))
    (n : Nat) (hn : pending.length = n) (hall : (done ++ pending).Perm all) (h : motive done st) :
    ∃ done', done'.Perm all ∧ motive done' (run n st pending) := by
  induction n generalizing st done pending with
  | zero =>
    rw [List.length_eq_zero_iff.mp hn, List.append_nil] at hall
    exact ⟨done, hall, h⟩
  | succ n ih =>
    unfold run
    split
    · rename_i x others hx
      have hperm := takeFewest_perm hx
      have hlength : others.length = n := by
        have := hperm.length_eq
        rw [List.length_cons] at this
        omega
      refine ih hlength ?_ (hstep hall h hx)
      exact (List.perm_middle.symm.trans (hperm.append_left done)).trans hall
    · rename_i hnone
      rw [takeFewest_eq_none hnone] at hn
      cases hn

/-- What every step of a selection keeps holds of what it knows in the end. -/
theorem known_induction (list : List (ConstraintId × Constraint α)) {motive : List (Candidate α) → State α → Prop}
    (hstart : motive [] ⟨[], [], []⟩)
    (hstep : ∀ {done st pending x others}, (done ++ pending).Perm (candidates list) → motive done st →
      takeFewest (fun y => freeCount st.assigned y.constraint) pending = some (x, others) →
      motive (x :: done) (step st x)) :
    ∃ done, done.Perm (candidates list) ∧ motive done (known list) :=
  run_induction hstep list.length (by simp [candidates]) (.refl _) hstart

theorem mem_known_shares {y : Variable × α × ConstraintId} (hy : y ∈ (known list).shares) : ∃ x ∈ candidates list,
    x.id = y.2.2 ∧ ∃ i t, x.constraint.terms[i]? = some t ∧ y.1 = t.var ∧ ¬ x.constraint.dominance i ≤ nearZero := by
  obtain ⟨done, hdone, h⟩ := known_induction list (motive := fun done st => ∀ y ∈ st.shares, ∃ x ∈ done,
      x.id = y.2.2 ∧ ∃ i t, x.constraint.terms[i]? = some t ∧ y.1 = t.var ∧ ¬ x.constraint.dominance i ≤ nearZero)
    (by simp) (fun {done st _ x _} _ h _ y hy => by
      rw [step_shares] at hy
      rcases mem_noteAll hy with hy | ⟨hid, hrest⟩
      · obtain ⟨z, hz, hrest⟩ := h y hy
        exact ⟨z, List.mem_cons_of_mem _ hz, hrest⟩
      · exact ⟨x, List.mem_cons_self, hid.symm, hrest⟩)
  obtain ⟨x, hx, hrest⟩ := h y hy
  exact ⟨x, hdone.mem_iff.mp hx, hrest⟩

/-! ## Places -/

omit [Scalar α] in
theorem nodup_places (list : List (ConstraintId × Constraint α)) : ((candidates list).map (·.place)).Nodup := by
  have hplaces : (candidates list).map (·.place) = List.range list.length := by
    rw [candidates, List.map_map]
    exact List.zipIdx_map_snd 0 list |>.trans (by rw [List.range_eq_range'])
  rw [hplaces]
  exact List.nodup_range

omit [Scalar α] in
theorem place_eq_of_id_eq (hn : (list.map (·.1)).Nodup) {x y : Candidate α} (hx : x ∈ candidates list)
    (hy : y ∈ candidates list) (h : x.id = y.id) : x.place = y.place := by
  have hid : ∀ z ∈ candidates list, (list.map (·.1))[z.place]? = some z.id := by
    intro z hz
    rw [List.getElem?_map, mem_candidates.mp hz]
    rfl
  have hlt : x.place < (list.map (·.1)).length := (List.getElem?_eq_some_iff.mp (hid x hx)).1
  exact (List.getElem?_inj hlt hn).mp (by rw [hid x hx, hid y hy, h])

omit [Scalar α] in
theorem place_ne_of_mem (hall : (done ++ pending).Perm (candidates list)) {x : Candidate α} (hx : x ∈ pending) :
    ∀ y ∈ done, y.place ≠ x.place := by
  have hn : ((done ++ pending).map (·.place)).Nodup := ((hall.map _).nodup_iff).mpr (nodup_places list)
  rw [List.map_append, List.nodup_append] at hn
  exact fun y hy => hn.2.2 _ (List.mem_map.mpr ⟨y, hy, rfl⟩) _ (List.mem_map.mpr ⟨x, hx, rfl⟩)

theorem mem_of_takeFewest {β : Type} {count : β → Nat} {l : List β} {x : β} {others : List β}
    (h : takeFewest count l = some (x, others)) : x ∈ l :=
  (takeFewest_perm h).mem_iff.mp List.mem_cons_self

theorem nodup_pivots (list : List (ConstraintId × Constraint α)) : ((known list).pivots.map (·.1)).Nodup := by
  obtain ⟨done, hdone, hsub⟩ := known_induction list
    (motive := fun done st => (st.pivots.map (·.1)).Sublist (done.map (·.place))) .slnil
    (fun {_ st _ x _} _ hsub _ => by
      rcases step_cases st x with ⟨t, -, h⟩ | ⟨-, h⟩
      · rw [h]
        exact hsub.cons_cons _
      · rw [h]
        exact hsub.cons _)
  exact (((hdone.map _).nodup_iff).mpr (nodup_places list)).sublist hsub

/-! ## Entries -/

/-- **The primary entries of a selection** are the pivots of the candidates. -/
theorem mem_primaries {e : PivotEntry} : e ∈ primaries list ↔
    ∃ x ∈ candidates list, (x.place, e.pivot) ∈ (known list).pivots ∧ e = .primary x.id e.pivot := by
  unfold primaries
  rw [List.mem_filterMap]
  constructor
  · rintro ⟨⟨⟨id, c⟩, i⟩, hmem, hfind⟩
    obtain ⟨⟨j, v⟩, hj, rfl⟩ := Option.map_eq_some_iff.mp hfind
    have hi : j = i := by simpa using List.find?_some hj
    exact ⟨⟨i, id, c⟩, mem_candidates.mpr (List.mem_zipIdx_iff_getElem?.mp hmem), hi ▸ List.mem_of_find?_eq_some hj, rfl⟩
  · rintro ⟨x, hx, hpivot, he⟩
    refine ⟨((x.id, x.constraint), x.place), List.mem_zipIdx_iff_getElem?.mpr (mem_candidates.mp hx), ?_⟩
    show ((known list).pivots.find? (·.1 = x.place)).map _ = _
    rw [find_of_nodup Prod.fst (nodup_pivots list) hpivot, he]
    rfl

theorem primaries_primary : ∀ e ∈ primaries list, e.duplicate = false := by
  intro e he
  obtain ⟨x, -, -, he⟩ := mem_primaries.mp he
  rw [he]
  rfl

theorem foldl_insertDuplicate_primary (l : List (ConstraintId × Variable)) (entries : List PivotEntry) :
    (l.foldl (fun es x => PivotEntry.insertDuplicate x.1 x.2 es) entries).filter (!·.duplicate) =
      entries.filter (!·.duplicate) := by
  induction l generalizing entries with
  | nil => rfl
  | cons x l ih => rw [List.foldl_cons, ih, PivotEntry.filter_primary_insertDuplicate]

theorem select_entries (s : System α) (ids : List ConstraintId) (vs : List Variable) (limit : Option Nat) :
    (select s ids vs limit).entries = (adoptions (considered s ids limit) vs).foldl
      (fun es x => PivotEntry.insertDuplicate x.1 x.2 es) (primaries (considered s ids limit)) := rfl

theorem filter_primary_select (s : System α) (ids : List ConstraintId) (vs : List Variable) (limit : Option Nat) :
    (select s ids vs limit).entries.filter (!·.duplicate) = primaries (considered s ids limit) := by
  rw [select_entries, foldl_insertDuplicate_primary, List.filter_eq_self]
  exact fun e he => by rw [primaries_primary e he]; rfl

theorem mem_select {limit : Option Nat} {e : PivotEntry} : e ∈ (select s ids vs limit).entries ∧ e.duplicate = false ↔
    ∃ x ∈ candidates (considered s ids limit), (x.place, e.pivot) ∈ (known (considered s ids limit)).pivots ∧
      e = .primary x.id e.pivot := by
  rw [← mem_primaries, ← filter_primary_select s ids vs, List.mem_filter, Bool.not_eq_true']

end Deterministic

end SoftLinear
