import Mathlib.Data.List.Perm.Basic
import SoftLinear.Pivot.Selector
import SoftLinear.Proofs.Pivots
import SoftLinear.Random

/-!
# Every selector serves its constraints

The three selectors differ in how they choose the primary entries and in which order they list them.  What they choose
is described by `Chosen`, one lemma for each of them; what they do for the variables is `Founded.foldl` each time.  The
result is the same for all three (`Selector.select_serves`), whatever the generator draws.  Of a generator it is only
asked that it shuffles: what comes out is what went in, in another order.
-/

namespace SoftLinear

/-! ## Generators -/

/-- A generator whose shuffles are permutations. -/
class Generator.Lawful (γ : Type) [Generator γ] : Prop where
  shuffle_perm : ∀ {β : Type} (g : γ) (xs : List β), (shuffle g xs).1.Perm xs

namespace KeyStream

theorem swapIfInBounds_perm {β : Type} (xs : Array β) (i j : Nat) : (xs.swapIfInBounds i j).toList.Perm xs.toList := by
  unfold Array.swapIfInBounds
  split
  · split
    · exact (Array.swap_perm _ _).toList
    · exact .refl _
  · exact .refl _

theorem swaps_perm {β : Type} (positions : List Nat) (xs : Array β) (cut : Cut) (s : KeyStream) :
    (swaps xs cut s positions).1.toList.Perm xs.toList := by
  induction positions generalizing xs cut s with
  | nil => exact .refl _
  | cons i rest ih => exact (ih _ _ _).trans (swapIfInBounds_perm xs i _)

instance : Generator.Lawful KeyStream where
  shuffle_perm s xs := by
    show (KeyStream.shuffle s xs).1.Perm xs
    unfold KeyStream.shuffle
    split
    · exact .refl _
    · exact swaps_perm _ xs.toArray _ s

end KeyStream

/-! ## Primary entries -/

section Primary

variable {α : Type} [Scalar α] {s : System α} {ids : List ConstraintId} {list : List (ConstraintId × Constraint α)}
  {entries : List PivotEntry}

/-- Primary entries for some constraints of a list, in their order, and for all heavy ones. -/
structure Chosen (list : List (ConstraintId × Constraint α)) (entries : List PivotEntry) : Prop where
  sublist : (entries.map (·.constraint)).Sublist (list.map (·.1))
  primary : ∀ e ∈ entries, e.duplicate = false
  named : ∀ e ∈ entries, ∃ c, (e.constraint, c) ∈ list ∧ c.Bears e.pivot
  heavy : ∀ x ∈ list, x.2.IsHeavy → ∃ e ∈ entries, e.constraint = x.1

theorem chosen_nil : Chosen ([] : List (ConstraintId × Constraint α)) [] :=
  ⟨List.Sublist.slnil, by simp, by simp, by simp⟩

theorem Chosen.cons (h : Chosen list entries) (id : ConstraintId) (c : Constraint α) (choice : Option PivotEntry)
    (hentry : ∀ e, choice = some e → ∃ v, c.Bears v ∧ e = .primary id v)
    (hheavy : c.IsHeavy → ∃ e, choice = some e) : Chosen ((id, c) :: list) (choice.toList ++ entries) := by
  cases choice with
  | none =>
    refine ⟨h.sublist.cons _, h.primary, ?_, List.forall_mem_cons.mpr ⟨?_, h.heavy⟩⟩
    · intro e he
      obtain ⟨c', hc', hv⟩ := h.named e he
      exact ⟨c', List.mem_cons_of_mem _ hc', hv⟩
    · intro hc
      obtain ⟨e, he⟩ := hheavy hc
      cases he
  | some e =>
    obtain ⟨v, hv, rfl⟩ := hentry e rfl
    refine ⟨h.sublist.cons_cons id, List.forall_mem_cons.mpr ⟨rfl, h.primary⟩, List.forall_mem_cons.mpr ⟨?_, ?_⟩,
      List.forall_mem_cons.mpr ⟨?_, ?_⟩⟩
    · exact ⟨c, List.mem_cons_self, hv⟩
    · intro e he
      obtain ⟨c', hc', hv⟩ := h.named e he
      exact ⟨c', List.mem_cons_of_mem _ hc', hv⟩
    · exact fun _ => ⟨_, List.mem_cons_self, rfl⟩
    · intro x hx hxheavy
      obtain ⟨e, he, hid⟩ := h.heavy x hx hxheavy
      exact ⟨e, List.mem_cons_of_mem _ he, hid⟩

omit [Scalar α] in
theorem System.mem_live_of_flag {id : ConstraintId} {c : Constraint α} (hid : id ∈ ids)
    (hc : s.constraint? id = some c) (hflag : s.flag? id = some true) : (id, c) ∈ s.live ids := by
  refine mem_live.mpr ⟨hid, hc, ?_⟩
  rw [flag?, hc] at hflag
  exact Option.some.inj hflag

/-- What was chosen for the enabled constraints of a list is founded, if all of them are enabled. -/
theorem Chosen.founded (h : Chosen (s.live ids) entries) (hn : ids.Nodup)
    (hlive : ∀ id ∈ ids, s.flag? id = some true) : PivotEntry.Founded s ids entries where
  present id hid c hc hheavy := by
    obtain ⟨e, he, hid'⟩ := h.heavy (id, c) (System.mem_live_of_flag hid hc (hlive id hid)) hheavy
    exact ⟨e, he, hid', h.primary e he⟩
  single := by
    rw [List.filter_eq_self.mpr (by simpa using h.primary)]
    have hnodup : (s.liveIds ids).Nodup := by
      rw [System.liveIds_eq_filter]
      exact hn.filter _
    exact hnodup.sublist h.sublist
  weighs e he _ := by
    obtain ⟨c, hc, hbears⟩ := h.named e he
    exact ⟨c, (System.mem_live.mp hc).2.1, hbears⟩
  fits e he := by
    obtain ⟨c, hc, hbears⟩ := h.named e he
    obtain ⟨hid, hc, -⟩ := System.mem_live.mp hc
    exact ⟨hid, c, hc, hbears.mem_vars⟩

theorem filterMap_cons_append {β δ : Type} (f : β → Option δ) (x : β) (l : List β) :
    (x :: l).filterMap f = (f x).toList ++ l.filterMap f := by
  rw [List.filterMap_cons]
  cases f x <;> rfl

omit [Scalar α] in
theorem entryAt_spec (c : Constraint α) (id : ConstraintId) {i : Nat} {e : PivotEntry} (h : c.entryAt? id i = some e) :
    ∃ t, c.terms[i]? = some t ∧ e = .primary id t.var := by
  obtain ⟨t, ht, rfl⟩ := Option.map_eq_some_iff.mp h
  exact ⟨t, ht, rfl⟩

end Primary

/-! ## The selectors -/

variable {α γ : Type} [Scalar α] [Scalar.Lawful α] [Generator γ]
  {list : List (ConstraintId × Constraint α)} {s : System α} {ids : List ConstraintId} {vs : List Variable}

namespace Uniform

theorem exists_draw {c : Constraint α} (hdefined : c.Defined) (hheavy : c.IsHeavy) (retries : Nat) (g : γ) :
    ∃ i t, (draw c retries g).1 = some i ∧ c.terms[i]? = some t := by
  induction retries generalizing g with
  | zero => exact Constraint.exists_dominantPivot hdefined hheavy
  | succ n ih =>
    -- a draw that misses is repeated, and the last resort is the dominant term
    unfold draw
    dsimp only
    split
    · rename_i t ht
      split
      · exact ⟨_, t, rfl, ht⟩
      · exact ih _
    · exact ih _

omit [Scalar.Lawful α] in
theorem draw_bears {c : Constraint α} {retries : Nat} {g : γ} {i : Nat} {t : Term α}
    (h : (draw c retries g).1 = some i) (ht : c.terms[i]? = some t) : c.Bears t.var := by
  induction retries generalizing g with
  | zero => exact Constraint.dominantPivot_bears h ht
  | succ n ih =>
    unfold draw at h
    dsimp only at h
    split at h
    · rename_i u hu
      split at h
      · rename_i hweight
        obtain rfl := Option.some.inj h
        obtain rfl := Option.some.inj (hu.symm.trans ht)
        exact ⟨u, List.mem_of_getElem? ht, rfl, hweight⟩
      · exact ih h
    · exact ih h

theorem drawAll_chosen (hdefined : ∀ x ∈ list, x.2.Defined) (retries : Nat) (g : γ) :
    Chosen list (drawAll retries list g).1 := by
  induction list generalizing g with
  | nil => exact chosen_nil
  | cons x list ih =>
    obtain ⟨id, c⟩ := x
    obtain ⟨hc, hrest⟩ := List.forall_mem_cons.mp hdefined
    have hdraw : (drawAll retries ((id, c) :: list) g).1 = ((pivotAt? retries c g).1.bind (c.entryAt? id)).toList ++
        (drawAll retries list (pivotAt? retries c g).2).1 := by
      rw [drawAll]
      dsimp only
      cases (pivotAt? retries c g).1.bind (c.entryAt? id) <;> rfl
    rw [hdraw]
    refine (ih hrest _).cons id c _ ?_ ?_
    · intro e he
      obtain ⟨i, hi, hentry⟩ := Option.bind_eq_some_iff.mp he
      obtain ⟨t, ht, rfl⟩ := entryAt_spec c id hentry
      refine ⟨t.var, ?_, rfl⟩
      unfold pivotAt? at hi
      split at hi
      · cases hi
      · exact draw_bears hi ht
    · intro hheavy
      obtain ⟨i, t, hi, ht⟩ := exists_draw hc hheavy retries g
      have hsome : (pivotAt? retries c g).1 = some i := by
        unfold pivotAt?
        rw [if_neg]
        · exact hi
        · intro hnil
          rw [List.isEmpty_iff.mp hnil] at ht
          cases ht
      exact ⟨.primary id t.var, by rw [hsome, Option.bind_some, Constraint.entryAt?, ht]; rfl⟩

theorem select_founded (g : γ) (retries : Nat) (hn : ids.Nodup) (hlive : ∀ id ∈ ids, s.flag? id = some true)
    (hdefined : ∀ x ∈ s.live ids, x.2.Defined) :
    let entries := (select g retries s ids vs none).1.entries
    PivotEntry.Founded s ids entries ∧ ∀ v ∈ vs, PivotEntry.Wanted s ids v → ∃ e ∈ entries, e.pivot = v := by
  have hfounded := (drawAll_chosen hdefined retries g).founded hn hlive
  obtain ⟨hall, -, hgiven⟩ := hfounded.fillOrphans (.refl s ids) vs
  exact ⟨hall, hgiven⟩

end Uniform

namespace TwoPhase

/-! ### Spreading -/

theorem pick_lt (recent : List PivotEntry) {pool : List PivotEntry} (h : pool ≠ []) :
    pick recent pool < pool.length := by
  unfold pick
  split
  · rename_i i _ hi
    obtain ⟨⟨e, k⟩, hk, heq⟩ := List.mem_map.mp (heaviest_mem hi)
    obtain ⟨rfl, -⟩ := Prod.mk.inj heq
    have hget := List.mem_zipIdx_iff_getElem?.mp (List.mem_filter.mp hk).1
    exact (List.getElem?_eq_some_iff.mp hget).1
  · exact List.length_pos_iff.mpr h

theorem arrange_perm (window n : Nat) (done pool : List PivotEntry) (h : pool.length = n) :
    (arrange window n done pool).Perm (done.reverse ++ pool) := by
  induction n generalizing done pool with
  | zero =>
    rw [List.length_eq_zero_iff.mp h, List.append_nil]
    exact .refl _
  | succ n ih =>
    have hlt : pick (done.take window) pool < pool.length := by
      apply pick_lt
      intro hnil
      rw [hnil] at h
      cases h
    -- the entry that is picked moves from the pool to those arranged
    have hstep : arrange window (n + 1) done pool = arrange window n (pool[pick (done.take window) pool] :: done)
        (pool.eraseIdx (pick (done.take window) pool)) := by
      rw [arrange]
      simp [hlt]
    rw [hstep]
    refine (ih _ _ (by rw [List.length_eraseIdx_of_lt hlt]; omega)).trans ?_
    rw [List.reverse_cons, List.append_assoc, List.singleton_append]
    exact (List.getElem_cons_eraseIdx_perm hlt).append_left _

theorem spacedShuffle_perm [Generator.Lawful γ] (g : γ) (distance : Nat) (pool : List PivotEntry) :
    (spacedShuffle g distance pool).1.Perm pool :=
  (arrange_perm _ _ [] _ rfl).trans (Generator.Lawful.shuffle_perm g pool)

/-! ### Choosing -/

theorem dominant_chosen (hdefined : ∀ x ∈ list, x.2.Defined) :
    Chosen list (list.filterMap fun (id, c) => c.dominantPivot?.bind (c.entryAt? id)) := by
  induction list with
  | nil => exact chosen_nil
  | cons x list ih =>
    obtain ⟨id, c⟩ := x
    obtain ⟨hc, hrest⟩ := List.forall_mem_cons.mp hdefined
    rw [filterMap_cons_append]
    refine (ih hrest).cons id c _ ?_ ?_
    · intro e he
      obtain ⟨i, hi, hentry⟩ := Option.bind_eq_some_iff.mp he
      obtain ⟨t, ht, rfl⟩ := entryAt_spec c id hentry
      exact ⟨t.var, Constraint.dominantPivot_bears hi ht, rfl⟩
    · intro hheavy
      obtain ⟨i, t, hi, ht⟩ := Constraint.exists_dominantPivot hc hheavy
      refine ⟨.primary id t.var, ?_⟩
      show c.dominantPivot?.bind (c.entryAt? id) = _
      rw [hi, Option.bind_some, Constraint.entryAt?, ht]
      rfl

theorem fits_globalSource {v : Variable} {source : ConstraintId} (h : globalSource? (s.live ids) v = some source) :
    PivotEntry.Fits s ids source v := by
  obtain ⟨x, hx, rfl⟩ := Option.map_eq_some_iff.mp h
  obtain ⟨hmem, hlt⟩ := List.mem_filter.mp (heaviest_mem hx)
  obtain ⟨⟨id, c⟩, hc, rfl⟩ := List.mem_map.mp hmem
  obtain ⟨hid, hc, -⟩ := System.mem_live.mp hc
  exact ⟨hid, c, hc, Constraint.mem_vars_of_influence (of_decide_eq_true hlt)⟩

omit [Scalar.Lawful α] in
theorem exists_globalSource {v : Variable} {x : ConstraintId × Constraint α} (hx : x ∈ list) (hv : x.2.Weighs v) :
    ∃ source, globalSource? list v = some source := by
  have hmem : (x.1, x.2.influence v) ∈ (list.map fun (id, c) => (id, c.influence v)).filter fun x => nearZero < x.2 :=
    List.mem_filter.mpr ⟨List.mem_map.mpr ⟨x, hx, rfl⟩, decide_eq_true hv.2⟩
  obtain ⟨y, hy⟩ := exists_heaviest hmem
  exact ⟨y.1, by rw [globalSource?, hy]; rfl⟩

/-- The entries after a variable was given one, without the count. -/
def governed (list : List (ConstraintId × Constraint α)) (entries : List PivotEntry) (v : Variable) : List PivotEntry :=
  (govern list (entries, 0) v).1

omit [Scalar.Lawful α] in
theorem foldl_govern (vs : List Variable) (entries : List PivotEntry) (n : Nat) :
    (vs.foldl (govern list) (entries, n)).1 = vs.foldl (governed list) entries := by
  induction vs generalizing entries n with
  | nil => rfl
  | cons v vs ih =>
    have hv : ∃ k, govern list (entries, n) v = (governed list entries v, k) := by
      unfold governed govern
      cases globalSource? list v with
      | none => exact ⟨n, rfl⟩
      | some source =>
        dsimp only
        split
        · exact ⟨n, rfl⟩
        · exact ⟨n + 1, rfl⟩
    obtain ⟨k, hk⟩ := hv
    rw [List.foldl_cons, List.foldl_cons, hk, ih]

theorem governed_founded (hlive : ∀ id ∈ ids, s.flag? id = some true) {entries : List PivotEntry}
    (h : PivotEntry.Founded s ids entries) (v : Variable) :
    PivotEntry.Founded s ids (governed (s.live ids) entries v) ∧ entries ⊆ governed (s.live ids) entries v ∧
      (PivotEntry.Wanted s ids v → ∃ e ∈ governed (s.live ids) entries v, e.pivot = v) := by
  unfold governed govern
  split
  · rename_i source hs
    split
    · rename_i hany
      obtain ⟨e, he, hboth⟩ := List.any_eq_true.mp hany
      simp only [Bool.and_eq_true, decide_eq_true_eq] at hboth
      exact ⟨h, List.Subset.refl _, fun _ => ⟨e, he, hboth.2⟩⟩
    · obtain ⟨hfounded, hkept, hgiven⟩ := h.give (fits_globalSource hs)
      exact ⟨hfounded, hkept, fun _ => hgiven⟩
  · rename_i hs
    refine ⟨h, List.Subset.refl _, ?_⟩
    rintro ⟨id, hid, c, hc, hweighs⟩
    obtain ⟨source, hsource⟩ := exists_globalSource (System.mem_live_of_flag hid hc (hlive id hid)) hweighs
    rw [hs] at hsource
    cases hsource

theorem select_founded [Generator.Lawful γ] (g : γ) (distance : Nat) (hn : ids.Nodup)
    (hlive : ∀ id ∈ ids, s.flag? id = some true) (hdefined : ∀ x ∈ s.live ids, x.2.Defined) :
    let entries := (select g distance s ids vs none).1.entries
    PivotEntry.Founded s ids entries ∧ ∀ v ∈ vs, PivotEntry.Wanted s ids v → ∃ e ∈ entries, e.pivot = v := by
  have hfounded := (dominant_chosen hdefined).founded hn hlive
  obtain ⟨hall, -, hgiven⟩ := hfounded.foldl vs id fun v _ _ hes => governed_founded hlive hes v
  rw [← foldl_govern vs _ 0] at hall hgiven
  have hperm := spacedShuffle_perm g distance
  refine ⟨hall.perm (hperm _), ?_⟩
  intro v hvs hv
  obtain ⟨e, he, hpivot⟩ := hgiven v hvs hv
  exact ⟨e, (hperm _).mem_iff.mpr he, hpivot⟩

end TwoPhase

namespace Deterministic

/-! ### Taking the candidates -/

theorem takeFewest_eq_none {β : Type} {count : β → Nat} {l : List β} (h : takeFewest count l = none) : l = [] := by
  cases l with
  | nil => rfl
  | cons a rest =>
    unfold takeFewest at h
    split at h
    · split at h <;> cases h
    · cases h

theorem takeFewest_perm {β : Type} {count : β → Nat} {l : List β} {x : β} {others : List β}
    (h : takeFewest count l = some (x, others)) : (x :: others).Perm l := by
  induction l generalizing x others with
  | nil => cases h
  | cons a rest ih =>
    unfold takeFewest at h
    split at h
    · rename_i y ys hy
      split at h
      · obtain ⟨rfl, rfl⟩ := Prod.mk.inj (Option.some.inj h)
        exact (List.Perm.swap _ _ _).trans ((ih hy).cons a)
      · obtain ⟨rfl, rfl⟩ := Prod.mk.inj (Option.some.inj h)
        exact .refl _
    · rename_i hnone
      obtain ⟨rfl, rfl⟩ := Prod.mk.inj (Option.some.inj h)
      rw [takeFewest_eq_none hnone]

/-! ### Shares -/

omit [Scalar.Lawful α] in
theorem mem_note {shares : Shares α} {v : Variable} {share : α} {id : ConstraintId} {y : Variable × α × ConstraintId}
    (h : y ∈ shares.note v share id) : y = (v, share, id) ∨ y ∈ shares := by
  induction shares with
  | nil => exact .inl (List.mem_singleton.mp h)
  | cons z rest ih =>
    obtain ⟨w, best, source⟩ := z
    unfold Shares.note at h
    split at h
    · rcases List.mem_cons.mp h with rfl | h
      · split
        · exact .inl rfl
        · exact .inr List.mem_cons_self
      · exact .inr (List.mem_cons_of_mem _ h)
    · rcases List.mem_cons.mp h with rfl | h
      · exact .inr List.mem_cons_self
      · exact (ih h).imp_right fun h => List.mem_cons_of_mem _ h

omit [Scalar.Lawful α] in
theorem keys_note (shares : Shares α) (v : Variable) (share : α) (id : ConstraintId) (w : Variable) :
    w ∈ (shares.note v share id).map (·.1) ↔ w = v ∨ w ∈ shares.map (·.1) := by
  induction shares with
  | nil => simp [Shares.note]
  | cons z rest ih =>
    obtain ⟨u, best, source⟩ := z
    unfold Shares.note
    by_cases hu : u = v
    · rw [if_pos hu]
      split <;> simp [hu]
    · rw [if_neg hu, List.map_cons, List.mem_cons, ih, List.map_cons, List.mem_cons]
      tauto

/-- Remembers the share of one term, unless it is almost zero. -/
def Shares.noteTerm (id : ConstraintId) (c : Constraint α) (shares : Shares α) (x : Term α × Nat) : Shares α :=
  if c.dominance x.2 ≤ nearZero then shares else shares.note x.1.var (c.dominance x.2) id

theorem noteTerm_spec (id : ConstraintId) (c : Constraint α) (shares : Shares α) (x : Term α × Nat) :
    (nearZero < c.dominance x.2 → x.1.var ∈ (shares.noteTerm id c x).map (·.1)) ∧
    (∀ v ∈ shares.map (·.1), v ∈ (shares.noteTerm id c x).map (·.1)) ∧
    ∀ y ∈ shares.noteTerm id c x, y ∈ shares ∨ y.2.2 = id ∧ y.1 = x.1.var := by
  unfold Shares.noteTerm
  split
  · rename_i hsmall
    exact ⟨fun hlt => absurd hsmall (Scalar.Lawful.not_le_of_lt hlt), fun _ hv => hv, fun _ hy => .inl hy⟩
  · refine ⟨fun _ => (keys_note _ _ _ _ _).mpr (.inl rfl), fun _ hv => (keys_note _ _ _ _ _).mpr (.inr hv), ?_⟩
    intro y hy
    rcases mem_note hy with rfl | hy
    · exact .inr ⟨rfl, rfl⟩
    · exact .inl hy

theorem foldl_noteTerm_spec (id : ConstraintId) (c : Constraint α) (l : List (Term α × Nat)) (shares : Shares α) :
    (∀ x ∈ l, nearZero < c.dominance x.2 → x.1.var ∈ (l.foldl (Shares.noteTerm id c) shares).map (·.1)) ∧
    (∀ v ∈ shares.map (·.1), v ∈ (l.foldl (Shares.noteTerm id c) shares).map (·.1)) ∧
    ∀ y ∈ l.foldl (Shares.noteTerm id c) shares, y ∈ shares ∨ y.2.2 = id ∧ ∃ x ∈ l, y.1 = x.1.var := by
  induction l generalizing shares with
  | nil => exact ⟨by simp, fun _ hv => hv, fun _ hy => .inl hy⟩
  | cons x l ih =>
    obtain ⟨hx, hold, hfrom⟩ := noteTerm_spec id c shares x
    obtain ⟨hshares, hkept, hnew⟩ := ih (shares.noteTerm id c x)
    refine ⟨List.forall_mem_cons.mpr ⟨fun hlt => hkept _ (hx hlt), hshares⟩, fun v hv => hkept v (hold v hv), ?_⟩
    intro y hy
    rcases hnew y hy with hy | ⟨hid, z, hz, hv⟩
    · exact (hfrom y hy).imp_right fun ⟨hid, hv⟩ => ⟨hid, x, List.mem_cons_self, hv⟩
    · exact .inr ⟨hid, z, List.mem_cons_of_mem _ hz, hv⟩

/-- What noting the terms of a constraint does: every share that is not almost zero is there, and all that is new comes
from the constraint. -/
theorem noteAll_spec (shares : Shares α) (id : ConstraintId) (c : Constraint α) :
    (∀ v, nearZero < c.influence v → v ∈ (shares.noteAll id c).map (·.1)) ∧
    (∀ v ∈ shares.map (·.1), v ∈ (shares.noteAll id c).map (·.1)) ∧
    ∀ y ∈ shares.noteAll id c, y ∈ shares ∨ y.2.2 = id ∧ y.1 ∈ c.terms.map (·.var) := by
  obtain ⟨hshares, hkept, hnew⟩ := foldl_noteTerm_spec id c c.terms.zipIdx shares
  refine ⟨?_, hkept, ?_⟩
  · intro v hv
    obtain ⟨i, t, -, ht, rfl, hshare⟩ := Constraint.exists_term_of_influence hv
    exact hshares (t, i) (List.mem_zipIdx_iff_getElem?.mpr ht) (hshare ▸ hv)
  · intro y hy
    refine (hnew y hy).imp_right fun ⟨hid, x, hx, hv⟩ => ⟨hid, List.mem_map.mpr ⟨x.1, ?_, hv.symm⟩⟩
    exact List.mem_of_getElem? (List.mem_zipIdx_iff_getElem?.mp hx)

/-! ### The greedy run -/

/-- What the selection knows about the candidates it has dealt with. -/
structure Tracks (done : List (Candidate α)) (st : State α) : Prop where
  chosen : ∀ x ∈ done, x.constraint.IsHeavy → ∃ v, (x.place, v) ∈ st.pivots
  placed : ∀ p ∈ st.pivots, ∃ x ∈ done, x.place = p.1 ∧ x.constraint.Bears p.2
  noted : ∀ x ∈ done, ∀ v, nearZero < x.constraint.influence v → v ∈ st.shares.map (·.1)
  sources : ∀ y ∈ st.shares, ∃ x ∈ done, x.id = y.2.2 ∧ y.1 ∈ x.constraint.terms.map (·.var)

variable {st : State α} {done pending : List (Candidate α)}

omit [Scalar.Lawful α] in
theorem Tracks.of_perm {done' : List (Candidate α)} (h : Tracks done st) (hp : done'.Perm done) : Tracks done' st where
  chosen x hx := h.chosen x (hp.mem_iff.mp hx)
  placed p hp' := by
    obtain ⟨x, hx, hrest⟩ := h.placed p hp'
    exact ⟨x, hp.mem_iff.mpr hx, hrest⟩
  noted x hx := h.noted x (hp.mem_iff.mp hx)
  sources y hy := by
    obtain ⟨x, hx, hrest⟩ := h.sources y hy
    exact ⟨x, hp.mem_iff.mpr hx, hrest⟩

theorem exists_pivotAt {c : Constraint α} (hdefined : c.Defined) (hheavy : c.IsHeavy) (assigned : List Variable) :
    ∃ t, (pivotAt? assigned c).bind (c.terms[·]?) = some t := by
  unfold pivotAt?
  split
  · rename_i i _ hi
    obtain ⟨⟨t, k⟩, hk, heq⟩ := List.mem_map.mp (heaviest_mem hi)
    obtain ⟨rfl, -⟩ := Prod.mk.inj heq
    exact ⟨t, List.mem_zipIdx_iff_getElem?.mp (List.mem_filter.mp hk).1⟩
  · obtain ⟨i, t, hi, ht⟩ := Constraint.exists_dominantPivot hdefined hheavy
    exact ⟨t, by rw [hi]; exact ht⟩

theorem pivotAt_bears {c : Constraint α} (hdefined : c.Defined) {assigned : List Variable} {t : Term α}
    (h : (pivotAt? assigned c).bind (c.terms[·]?) = some t) : c.Bears t.var := by
  obtain ⟨i, hi, ht⟩ := Option.bind_eq_some_iff.mp h
  have hmem := List.mem_of_getElem? ht
  unfold pivotAt? at hi
  split at hi
  · rename_i k _ hk
    obtain rfl := Option.some.inj hi
    obtain ⟨⟨u, j⟩, hu, heq⟩ := List.mem_map.mp (heaviest_mem hk)
    obtain ⟨rfl, -⟩ := Prod.mk.inj heq
    obtain ⟨hu, hfree⟩ := List.mem_filter.mp hu
    obtain rfl := Option.some.inj ((List.mem_zipIdx_iff_getElem?.mp hu).symm.trans ht)
    simp only [Bool.and_eq_true, Bool.not_eq_true', decide_eq_false_iff_not] at hfree
    have hnear : Scalar.isNaN (nearZero : α) = false := (Scalar.Ordered.defined_of_lt Scalar.Lawful.nearZero_pos).2
    have hweight := Scalar.Ordered.lt_of_not_le ((Scalar.Lawful.isNaN_abs _).trans (hdefined u hmem)) hnear hfree.1
    exact ⟨u, hmem, rfl, hweight⟩
  · exact Constraint.dominantPivot_bears hi ht

theorem Tracks.step (h : Tracks done st) {x : Candidate α} (hdefined : x.constraint.Defined) :
    Tracks (x :: done) (step st x) := by
  obtain ⟨hshares, hkept, hnew⟩ := noteAll_spec st.shares x.id x.constraint
  have hnoted : ∀ y ∈ x :: done, ∀ v, nearZero < y.constraint.influence v →
      v ∈ (st.shares.noteAll x.id x.constraint).map (·.1) :=
    List.forall_mem_cons.mpr ⟨hshares, fun y hy v hv => hkept v (h.noted y hy v hv)⟩
  have hsources : ∀ y ∈ st.shares.noteAll x.id x.constraint, ∃ z ∈ x :: done, z.id = y.2.2 ∧
      y.1 ∈ z.constraint.terms.map (·.var) := by
    intro y hy
    rcases hnew y hy with hy | ⟨hid, hv⟩
    · obtain ⟨z, hz, hrest⟩ := h.sources y hy
      exact ⟨z, List.mem_cons_of_mem _ hz, hrest⟩
    · exact ⟨x, List.mem_cons_self, hid.symm, hv⟩
  have hplaced : ∀ p ∈ st.pivots, ∃ z ∈ x :: done, z.place = p.1 ∧ z.constraint.Bears p.2 := by
    intro p hp
    obtain ⟨z, hz, hrest⟩ := h.placed p hp
    exact ⟨z, List.mem_cons_of_mem _ hz, hrest⟩
  unfold Deterministic.step
  dsimp only
  split
  · rename_i t ht
    refine ⟨List.forall_mem_cons.mpr ⟨?_, ?_⟩, List.forall_mem_cons.mpr ⟨?_, hplaced⟩, hnoted, hsources⟩
    · exact fun _ => ⟨t.var, List.mem_cons_self⟩
    · intro y hy hheavy
      obtain ⟨v, hv⟩ := h.chosen y hy hheavy
      exact ⟨v, List.mem_cons_of_mem _ hv⟩
    · exact ⟨x, List.mem_cons_self, rfl, pivotAt_bears hdefined ht⟩
  · -- a constraint in which something weighs is never left without a pivot
    rename_i hnone
    refine ⟨List.forall_mem_cons.mpr ⟨?_, h.chosen⟩, hplaced, hnoted, hsources⟩
    intro hheavy
    obtain ⟨t, ht⟩ := exists_pivotAt hdefined hheavy st.assigned
    rw [hnone] at ht
    cases ht

/-- A run deals with all candidates, in whichever order it takes them. -/
theorem Tracks.run (h : Tracks done st) (n : Nat) (hn : pending.length = n)
    (hdefined : ∀ x ∈ pending, x.constraint.Defined) : Tracks (pending ++ done) (run n st pending) := by
  induction n generalizing st done pending with
  | zero =>
    rw [List.length_eq_zero_iff.mp hn]
    exact h
  | succ n ih =>
    unfold Deterministic.run
    split
    · rename_i x others hx
      have hperm := takeFewest_perm hx
      have hlength : others.length = n := by
        have := hperm.length_eq
        rw [List.length_cons] at this
        omega
      have hrest : ∀ y ∈ others, y.constraint.Defined :=
        fun y hy => hdefined y (hperm.mem_iff.mp (List.mem_cons_of_mem _ hy))
      have hnext := ih (h.step (hdefined x (hperm.mem_iff.mp List.mem_cons_self))) hlength hrest
      refine hnext.of_perm ((hperm.symm.append_right done).trans ?_)
      exact List.perm_middle.symm
    · rename_i hnone
      rw [takeFewest_eq_none hnone] at hn
      cases hn

omit [Scalar.Lawful α] in
theorem placed_chosen (pivots : List (Nat × Variable)) (n : Nat)
    (hvars : ∀ x ∈ list.zipIdx n, ∀ v, (x.2, v) ∈ pivots → x.1.2.Bears v)
    (hheavy : ∀ x ∈ list.zipIdx n, x.1.2.IsHeavy → ∃ v, (x.2, v) ∈ pivots) :
    Chosen list ((list.zipIdx n).filterMap fun ((id, _), i) =>
      (pivots.find? (·.1 = i)).map fun (_, v) => PivotEntry.primary id v) := by
  induction list generalizing n with
  | nil => exact chosen_nil
  | cons x list ih =>
    obtain ⟨id, c⟩ := x
    rw [List.zipIdx_cons] at hvars hheavy ⊢
    obtain ⟨hcvars, hvars⟩ := List.forall_mem_cons.mp hvars
    obtain ⟨hcheavy, hheavy⟩ := List.forall_mem_cons.mp hheavy
    rw [filterMap_cons_append]
    refine (ih (n + 1) hvars hheavy).cons id c _ ?_ ?_
    · intro e he
      obtain ⟨⟨i, v⟩, hfind, rfl⟩ := Option.map_eq_some_iff.mp he
      -- places count along the list, so the pivot noted at `n` is that of the head
      have hi : i = n := by simpa using List.find?_some hfind
      exact ⟨v, hcvars v (hi ▸ List.mem_of_find?_eq_some hfind), rfl⟩
    · intro hc
      obtain ⟨v, hv⟩ := hcheavy hc
      cases hfind : pivots.find? (·.1 = n) with
      | none =>
        have hne := List.find?_eq_none.mp hfind _ hv
        simp at hne
      | some p =>
        refine ⟨.primary id p.2, ?_⟩
        show (pivots.find? (·.1 = n)).map _ = _
        rw [hfind]
        rfl

omit [Scalar α] [Scalar.Lawful α] in
theorem source_spec {shares : Shares α} {v : Variable} {source : ConstraintId} (h : shares.source? v = some source) :
    ∃ y ∈ shares, y.1 = v ∧ y.2.2 = source := by
  obtain ⟨y, hy, hsource⟩ := Option.map_eq_some_iff.mp h
  exact ⟨y, List.mem_of_find?_eq_some hy, by simpa using List.find?_some hy, hsource⟩

omit [Scalar α] [Scalar.Lawful α] in
theorem exists_source {shares : Shares α} {v : Variable} (h : v ∈ shares.map (·.1)) :
    ∃ source, shares.source? v = some source := by
  obtain ⟨y, hy, hv⟩ := List.mem_map.mp h
  unfold Shares.source?
  cases hfind : shares.find? (·.1 = v) with
  | none => exact absurd hv (by simpa using List.find?_eq_none.mp hfind y hy)
  | some z => exact ⟨_, rfl⟩

/-- The candidates that a selection starts with. -/
def candidates (list : List (ConstraintId × Constraint α)) : List (Candidate α) :=
  list.zipIdx.map fun ((id, c), i) => ⟨i, id, c⟩

omit [Scalar α] [Scalar.Lawful α] in
theorem mem_candidates {x : Candidate α} : x ∈ candidates list ↔ list[x.place]? = some (x.id, x.constraint) := by
  constructor
  · intro hx
    obtain ⟨⟨⟨id, c⟩, i⟩, hmem, rfl⟩ := List.mem_map.mp hx
    exact List.mem_zipIdx_iff_getElem?.mp hmem
  · intro hx
    exact List.mem_map.mpr ⟨((x.id, x.constraint), x.place), List.mem_zipIdx_iff_getElem?.mpr hx, rfl⟩

omit [Scalar α] [Scalar.Lawful α] in
theorem mem_of_candidate {x : Candidate α} (hx : x ∈ candidates list) : (x.id, x.constraint) ∈ list :=
  List.mem_of_getElem? (mem_candidates.mp hx)

/-- What the selection knows in the end. -/
def known (list : List (ConstraintId × Constraint α)) : State α := run list.length ⟨[], [], []⟩ (candidates list)

theorem known_tracks (hdefined : ∀ x ∈ list, x.2.Defined) : Tracks (candidates list) (known list) := by
  have hstart : Tracks [] (⟨[], [], []⟩ : State α) := ⟨by simp, by simp, by simp, by simp⟩
  have hall : ∀ x ∈ candidates list, x.constraint.Defined :=
    fun x hx => hdefined _ (mem_of_candidate hx)
  have hrun := hstart.run list.length (by simp [candidates]) hall
  rwa [List.append_nil] at hrun

/-- The primary entries of a selection. -/
def primaries (list : List (ConstraintId × Constraint α)) : List PivotEntry :=
  list.zipIdx.filterMap fun ((id, _), i) => ((known list).pivots.find? (·.1 = i)).map fun (_, v) => .primary id v

theorem primaries_chosen (hdefined : ∀ x ∈ list, x.2.Defined) : Chosen list (primaries list) := by
  have htracks := known_tracks hdefined
  refine placed_chosen (known list).pivots 0 ?_ ?_
  · intro ⟨⟨id, c⟩, i⟩ hx v hv
    obtain ⟨y, hy, hplace, hmem⟩ := htracks.placed _ hv
    -- the place determines the candidate
    have hsame := mem_candidates.mp hy
    rw [hplace, List.mem_zipIdx_iff_getElem?.mp hx] at hsame
    obtain ⟨-, rfl⟩ := Prod.mk.inj (Option.some.inj hsame)
    exact hmem
  · intro ⟨⟨id, c⟩, i⟩ hx hheavy
    have hcandidate : (⟨i, id, c⟩ : Candidate α) ∈ candidates list :=
      mem_candidates.mpr (List.mem_zipIdx_iff_getElem?.mp hx)
    exact htracks.chosen _ hcandidate hheavy

theorem fits_source (hdefined : ∀ x ∈ s.live ids, x.2.Defined) {v : Variable} {source : ConstraintId}
    (h : (known (s.live ids)).shares.source? v = some source) : PivotEntry.Fits s ids source v := by
  obtain ⟨y, hy, rfl, rfl⟩ := source_spec h
  obtain ⟨x, hx, hid, hv⟩ := (known_tracks hdefined).sources y hy
  obtain ⟨hmem, hc, -⟩ := System.mem_live.mp (mem_of_candidate hx)
  rw [← hid]
  exact ⟨hmem, x.constraint, hc, hv⟩

/-- The variables without a primary entry, each with the constraint that its duplicate names. -/
def adoptions (list : List (ConstraintId × Constraint α)) (vs : List Variable) : List (ConstraintId × Variable) :=
  (vs.filter fun v => (primaries list).all (·.pivot ≠ v)).filterMap fun v =>
    ((known list).shares.source? v).map fun source => (source, v)

omit [Scalar.Lawful α] in
theorem source_of_adoption {x : ConstraintId × Variable} (hx : x ∈ adoptions list vs) :
    (known list).shares.source? x.2 = some x.1 := by
  obtain ⟨v, -, hv⟩ := List.mem_filterMap.mp hx
  obtain ⟨source, hsource, rfl⟩ := Option.map_eq_some_iff.mp hv
  exact hsource

theorem exists_adoption (hdefined : ∀ x ∈ list, x.2.Defined) {v : Variable} (hv : v ∈ vs)
    (horphan : (primaries list).all (·.pivot ≠ v) = true) {x : ConstraintId × Constraint α} (hx : x ∈ list)
    (hweighs : x.2.Weighs v) : ∃ source, (source, v) ∈ adoptions list vs := by
  obtain ⟨i, hi⟩ := List.mem_iff_getElem?.mp hx
  have hcandidate : (⟨i, x.1, x.2⟩ : Candidate α) ∈ candidates list := mem_candidates.mpr hi
  obtain ⟨source, hsource⟩ := exists_source ((known_tracks hdefined).noted _ hcandidate v hweighs.2)
  refine ⟨source, List.mem_filterMap.mpr ⟨v, List.mem_filter.mpr ⟨hv, horphan⟩, ?_⟩⟩
  rw [hsource]
  rfl

theorem fits_adoption (hdefined : ∀ x ∈ s.live ids, x.2.Defined) {x : ConstraintId × Variable}
    (hx : x ∈ adoptions (s.live ids) vs) : PivotEntry.Fits s ids x.1 x.2 :=
  fits_source hdefined (source_of_adoption hx)

theorem select_founded (hn : ids.Nodup) (hlive : ∀ id ∈ ids, s.flag? id = some true)
    (hdefined : ∀ x ∈ s.live ids, x.2.Defined) :
    let entries := (select s ids vs none).entries
    PivotEntry.Founded s ids entries ∧ ∀ v ∈ vs, PivotEntry.Wanted s ids v → ∃ e ∈ entries, e.pivot = v := by
  have hfounded := (primaries_chosen hdefined).founded hn hlive
  have hstep : ∀ x ∈ adoptions (s.live ids) vs, ∀ es, PivotEntry.Founded s ids es →
      PivotEntry.Founded s ids (PivotEntry.insertDuplicate x.1 x.2 es) ∧
      es ⊆ PivotEntry.insertDuplicate x.1 x.2 es ∧
      (True → ∃ e ∈ PivotEntry.insertDuplicate x.1 x.2 es, e.pivot = x.2) := by
    intro x hx es hes
    obtain ⟨hfounded, hkept, hgiven⟩ := hes.give (fits_adoption hdefined hx)
    exact ⟨hfounded, hkept, fun _ => hgiven⟩
  obtain ⟨hall, hkept, hgiven⟩ := hfounded.foldl (adoptions (s.live ids) vs) (·.2) hstep
  refine ⟨hall, ?_⟩
  intro v hvar hv
  by_cases horphan : (primaries (s.live ids)).all (·.pivot ≠ v) = true
  · obtain ⟨id, hid, c, hc, hweighs⟩ := hv
    have hmem := System.mem_live_of_flag hid hc (hlive id hid)
    obtain ⟨source, hsource⟩ := exists_adoption hdefined hvar horphan hmem hweighs
    exact hgiven (source, v) hsource trivial
  · simp only [List.all_eq_true, not_forall] at horphan
    obtain ⟨e, he, hpivot⟩ := horphan
    exact ⟨e, hkept he, by simpa using hpivot⟩

end Deterministic

/-- **Every selector founds its entries**, and gives one to each variable that it is asked about and that is wanted. -/
theorem Selector.select_founded [Generator.Lawful γ] (selector : Selector γ) (vs : List Variable) (hn : ids.Nodup)
    (hlive : ∀ id ∈ ids, s.flag? id = some true) (hdefined : ∀ x ∈ s.live ids, x.2.Defined) :
    let entries := (selector.select s ids vs none).1.entries
    PivotEntry.Founded s ids entries ∧ ∀ v ∈ vs, PivotEntry.Wanted s ids v → ∃ e ∈ entries, e.pivot = v := by
  cases selector with
  | uniform => exact Uniform.select_founded _ _ hn hlive hdefined
  | twoPhase => exact TwoPhase.select_founded _ _ hn hlive hdefined
  | deterministic => exact Deterministic.select_founded hn hlive hdefined

/-- **Every selector serves** when it is asked about all variables that are wanted. -/
theorem Selector.select_serves [Generator.Lawful γ] (selector : Selector γ) (hn : ids.Nodup)
    (hlive : ∀ id ∈ ids, s.flag? id = some true) (hdefined : ∀ x ∈ s.live ids, x.2.Defined)
    (hvs : ∀ v, PivotEntry.Wanted s ids v → v ∈ vs) :
    PivotEntry.Serves s ids (selector.select s ids vs none).1.entries := by
  obtain ⟨hfounded, hgiven⟩ := selector.select_founded vs hn hlive hdefined
  exact ⟨hfounded, fun v hv => hgiven v (hvs v hv) hv⟩

end SoftLinear
