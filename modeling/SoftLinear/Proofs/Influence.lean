import SoftLinear.Proofs.Greedy
import SoftLinear.Proofs.ShareLaws
import SoftLinear.Proofs.Upkeep

/-!
# Where duplicates go

Each selector looks in its own way for the constraint in which a variable has its greatest share: in a map that is filled
candidate by candidate, among the primary entries, or among all considered constraints.  All three searches come to the
heaviest of the shares that do not count as zero (`rivals`); the lists that they look at differ.

* The map of a deterministic selection holds it for the candidates in the order in which they are dealt with, whatever that
  order is (`Deterministic.known_best`).
* The other two are of this form already (`PivotEntry.mostInfluential_eq`, `TwoPhase.globalSource?`).

What is heaviest is foremost (`foremost_of_heaviest`), and no selector puts in a duplicate other than where its search leads
(`PivotEntry.Led`).
-/

namespace SoftLinear

variable {α γ : Type} [Scalar α]

/-! ## The foremost constraint -/

theorem heaviest_concat {β ω : Type} [LT ω] [DecidableLT ω] (l : List (β × ω)) (x : β × ω) :
    heaviest (l ++ [x]) = heavier (heaviest l) x := by
  rw [heaviest, List.foldl_append]
  rfl

/-- The constraints in which a variable has a share that does not count as zero, each with that share. -/
def rivals (list : List (ConstraintId × Constraint α)) (v : Variable) : List (ConstraintId × α) :=
  (list.map fun x => (x.1, x.2.influence v)).filter (nearZero < ·.2)

/-- A constraint of a list is the earliest of those in which a variable has its greatest share. -/
def Foremost (list : List (ConstraintId × Constraint α)) (v : Variable) (id : ConstraintId) (c : Constraint α) : Prop :=
  ∃ before after, list = before ++ (id, c) :: after ∧ (∀ x ∈ before, x.2.influence v < c.influence v) ∧
    ∀ x ∈ after, x.2.influence v ≤ c.influence v

section Foremost

variable {list : List (ConstraintId × Constraint α)} {v : Variable} {id : ConstraintId} {c : Constraint α}
  {x : ConstraintId × Constraint α}

theorem rivals_concat (list : List (ConstraintId × Constraint α)) (v : Variable) (x : ConstraintId × Constraint α) :
    rivals (list ++ [x]) v = rivals list v ++ if nearZero < x.2.influence v then [(x.1, x.2.influence v)] else [] := by
  rw [rivals, List.map_append, List.filter_append, ← rivals, List.map_singleton, List.filter_singleton]
  simp

theorem mem_rivals (hx : x ∈ list) (h : nearZero < x.2.influence v) : (x.1, x.2.influence v) ∈ rivals list v :=
  List.mem_filter.mpr ⟨List.mem_map.mpr ⟨x, hx, rfl⟩, decide_eq_true h⟩

namespace Foremost

theorem mem (h : Foremost list v id c) : (id, c) ∈ list := by
  obtain ⟨before, after, rfl, -, -⟩ := h
  exact List.mem_append_right _ List.mem_cons_self

theorem not_lt [Scalar.Lawful α] (h : Foremost list v id c) (hx : x ∈ list) : ¬ c.influence v < x.2.influence v := by
  obtain ⟨before, after, rfl, hbefore, hafter⟩ := h
  intro hlt
  rcases List.mem_append.mp hx with hx | hx
  · exact Scalar.Lawful.lt_irrefl _ (Scalar.Lawful.lt_trans hlt (hbefore x hx))
  · rcases List.mem_cons.mp hx with rfl | hx
    · exact Scalar.Lawful.lt_irrefl _ hlt
    · exact Scalar.Lawful.not_le_of_lt hlt (hafter x hx)

theorem concat (h : Foremost list v id c) (hx : x.2.influence v ≤ c.influence v) : Foremost (list ++ [x]) v id c := by
  obtain ⟨before, after, rfl, hbefore, hafter⟩ := h
  refine ⟨before, after ++ [x], by simp, hbefore, fun y hy => ?_⟩
  rcases List.mem_append.mp hy with hy | hy
  · exact hafter y hy
  · rw [List.mem_singleton.mp hy]
    exact hx

theorem of_lt (h : ∀ y ∈ list, y.2.influence v < x.2.influence v) : Foremost (list ++ [x]) v x.1 x.2 :=
  ⟨list, [], rfl, h, by simp⟩

end Foremost

/-- **The heaviest of the rivals is foremost**: it is the earliest constraint in which the variable has its greatest share. -/
theorem foremost_of_heaviest [Scalar.Lawful α] (hdefined : ∀ x ∈ list, Scalar.isNaN (x.2.influence v) = false)
    {y : ConstraintId × α} (h : heaviest (rivals list v) = some y) :
    ∃ c, Foremost list v y.1 c ∧ c.influence v = y.2 := by
  -- along the list, since a rival that comes later has to be strictly greater
  induction list using List.reverseRecOn generalizing y with
  | nil => cases h
  | append_singleton list x ih =>
    have hlist : ∀ z ∈ list, Scalar.isNaN (z.2.influence v) = false :=
      fun z hz => hdefined z (List.mem_append_left _ hz)
    have hx : Scalar.isNaN (x.2.influence v) = false := hdefined x (by simp)
    rw [rivals_concat] at h
    by_cases hrival : nearZero < x.2.influence v
    · rw [if_pos hrival, heaviest_concat] at h
      cases hbest : heaviest (rivals list v) with
      | none =>
        rw [hbest] at h
        obtain rfl := Option.some.inj h
        refine ⟨x.2, .of_lt fun z hz => ?_, rfl⟩
        -- no rival came before, so all shares before are almost zero
        refine (Scalar.Lawful.lt_or_lt hrival (hlist z hz)).resolve_left fun hlt => ?_
        obtain ⟨w, hw⟩ := exists_heaviest (mem_rivals hz hlt)
        rw [hbest] at hw
        cases hw
      | some b =>
        obtain ⟨c, hforemost, hc⟩ := ih hlist hbest
        rw [hbest, heavier, ← hc] at h
        split at h
        · rename_i hlt
          obtain rfl := Option.some.inj h
          exact ⟨x.2, .of_lt fun z hz =>
            (Scalar.Lawful.lt_or_lt hlt (hlist z hz)).resolve_left (hforemost.not_lt hz), rfl⟩
        · rename_i hlt
          obtain rfl := Option.some.inj h
          exact ⟨c, hforemost.concat (Scalar.le_of_not_lt hx (hlist _ hforemost.mem) hlt), hc⟩
    · rw [if_neg hrival, List.append_nil] at h
      obtain ⟨c, hforemost, hc⟩ := ih hlist h
      refine ⟨c, hforemost.concat (Scalar.le_of_not_lt hx (hlist _ hforemost.mem) fun hlt => hrival ?_), hc⟩
      have hy : nearZero < y.2 := of_decide_eq_true (List.mem_filter.mp (heaviest_mem h)).2
      exact Scalar.Lawful.lt_trans (hc ▸ hy) hlt

end Foremost

/-! ## Duplicates -/

namespace PivotEntry

variable {search : Variable → Option ConstraintId} {entries first : List PivotEntry} {source : ConstraintId}
  {v : Variable}

/-- Each duplicate names the constraint to which a search for its pivot leads. -/
def Led (search : Variable → Option ConstraintId) (entries : List PivotEntry) : Prop :=
  ∀ e ∈ entries, e.duplicate = true → search e.pivot = some e.constraint

theorem led_of_primary (h : ∀ e ∈ entries, e.duplicate = false) : Led search entries := by
  intro e he hduplicate
  rw [h e he] at hduplicate
  cases hduplicate

theorem Led.insertDuplicate (h : Led search entries) (hs : search v = some source) :
    Led search (insertDuplicate source v entries) := by
  intro e he
  rcases List.mem_cons.mp ((insertDuplicate_perm source v entries).mem_iff.mp he) with rfl | he
  · exact fun _ => hs
  · exact h e he

/-- The constraints with a primary entry. -/
def served (s : System α) (entries : List PivotEntry) : List (ConstraintId × Constraint α) :=
  (entries.filter (!·.duplicate)).filterMap fun e => (s.constraint? e.constraint).map fun c => (e.constraint, c)

theorem mostInfluential_eq (s : System α) (entries : List PivotEntry) (v : Variable) :
    mostInfluential? s entries v = (heaviest (rivals (served s entries) v)).map (·.1) := by
  rw [mostInfluential?, rivals, served, List.map_filterMap]
  simp only [Option.map_map]
  rfl

theorem adopt_led {s : System α} (h : Led (mostInfluential? s first) entries)
    (hkept : entries.filter (!·.duplicate) = first.filter (!·.duplicate)) (v : Variable) :
    Led (mostInfluential? s first) (adopt s entries v) ∧
      (adopt s entries v).filter (!·.duplicate) = first.filter (!·.duplicate) := by
  unfold adopt
  split
  · exact ⟨h, hkept⟩
  · split
    · rename_i source hs
      have hsame : mostInfluential? s entries v = mostInfluential? s first v := by rw [mostInfluential?, hkept]; rfl
      exact ⟨h.insertDuplicate (hsame ▸ hs), (filter_primary_insertDuplicate _ _ _).trans hkept⟩
    · exact ⟨h, hkept⟩

/-- The search that adopts variables looks at the primary entries, which stay. -/
theorem fillOrphans_led {s : System α} (h : ∀ e ∈ entries, e.duplicate = false) (vs : List Variable) :
    Led (mostInfluential? s entries) (fillOrphans s entries vs) :=
  (List.foldlRecOn (motive := fun es => Led (mostInfluential? s entries) es ∧
    es.filter (!·.duplicate) = entries.filter (!·.duplicate)) vs (adopt s) ⟨led_of_primary h, rfl⟩
    fun _ hes v _ => adopt_led hes.1 hes.2 v).1

end PivotEntry

/-! ## The map of a deterministic selection -/

namespace Constraint

variable {c : Constraint α}

theorem influence_of_getElem (hdistinct : (c.terms.map (·.var)).Nodup) {i : Nat} {t : Term α}
    (ht : c.terms[i]? = some t) : c.influence t.var = c.dominance i := by
  obtain ⟨hi, rfl⟩ := List.getElem?_eq_some_iff.mp ht
  have hposition : c.position? c.terms[i].var = some i := by
    refine List.findIdx?_eq_some_iff_getElem.mpr ⟨hi, by simp, fun j hj => ?_⟩
    have hne := List.pairwise_iff_getElem.mp hdistinct j i (by simp; omega) (by simpa using hi) hj
    simpa using hne
  rw [influence, hposition]

end Constraint

namespace Deterministic

variable {shares : Shares α} {id : ConstraintId} {c : Constraint α} {v : Variable}

/-- The constraint and the share that are remembered for a variable. -/
def Shares.best? (shares : Shares α) (v : Variable) : Option (ConstraintId × α) :=
  (shares.find? (·.1 = v)).map fun y => (y.2.2, y.2.1)

omit [Scalar α] in
theorem Shares.source_eq (shares : Shares α) (v : Variable) : shares.source? v = (shares.best? v).map (·.1) := by
  rw [Shares.source?, Shares.best?, Option.map_map]
  rfl

theorem Shares.best_note (shares : Shares α) (v : Variable) (share : α) (id : ConstraintId) (w : Variable) :
    (shares.note v share id).best? w = if w = v then heavier (shares.best? v) (id, share) else shares.best? w := by
  induction shares with
  | nil =>
    by_cases hw : w = v
    · simp [Shares.note, Shares.best?, heavier, hw]
    · simp [Shares.note, Shares.best?, hw, Ne.symm hw]
  | cons y rest ih =>
    obtain ⟨u, best, source⟩ := y
    unfold Shares.best? at ih ⊢
    unfold Shares.note
    by_cases hu : u = v
    · subst hu
      by_cases hw : w = u
      · subst hw
        by_cases hlt : best < share <;> simp [heavier, hlt]
      · by_cases hlt : best < share <;> simp [hlt, hw, Ne.symm hw]
    · rw [if_neg hu]
      by_cases hw : u = w
      · subst hw
        simp [hu]
      · simp [hw, hu, ih]

theorem Shares.best_noteTerm (shares : Shares α) (id : ConstraintId) (c : Constraint α) (x : Term α × Nat)
    (w : Variable) : (shares.noteTerm id c x).best? w =
      if w = x.1.var ∧ ¬ c.dominance x.2 ≤ nearZero then heavier (shares.best? w) (id, c.dominance x.2)
      else shares.best? w := by
  unfold Shares.noteTerm
  split
  · rename_i hsmall
    rw [if_neg fun h => h.2 hsmall]
  · rename_i hshare
    rw [best_note]
    by_cases hw : w = x.1.var
    · rw [if_pos hw, if_pos ⟨hw, hshare⟩, hw]
    · rw [if_neg hw, if_neg fun h => hw h.1]

theorem Shares.best_foldl_of_ne (shares : Shares α) {l : List (Term α × Nat)} (h : ∀ x ∈ l, x.1.var ≠ v) :
    (l.foldl (Shares.noteTerm id c) shares).best? v = shares.best? v := by
  induction l generalizing shares with
  | nil => rfl
  | cons x l ih =>
    obtain ⟨hx, hl⟩ := List.forall_mem_cons.mp h
    rw [List.foldl_cons, ih _ hl, best_noteTerm, if_neg fun hboth => hx hboth.1.symm]

/-- **Noting the shares of a constraint** compares, for each variable, its share in that constraint with the one that is
remembered, if the share does not count as zero. -/
theorem Shares.best_noteAll [Scalar.Lawful α] (shares : Shares α) (id : ConstraintId)
    (hdistinct : (c.terms.map (·.var)).Nodup) (hdefined : ∀ i, Scalar.isNaN (c.dominance i) = false) (v : Variable) :
    (shares.noteAll id c).best? v =
      if nearZero < c.influence v then heavier (shares.best? v) (id, c.influence v) else shares.best? v := by
  show (c.terms.zipIdx.foldl (Shares.noteTerm id c) shares).best? v = _
  by_cases hv : ∃ x ∈ c.terms.zipIdx, x.1.var = v
  · obtain ⟨x, hx, rfl⟩ := hv
    have hshare : c.influence x.1.var = c.dominance x.2 :=
      Constraint.influence_of_getElem hdistinct (List.mem_zipIdx_iff_getElem?.mp hx)
    have hiff : (¬ c.dominance x.2 ≤ nearZero) ↔ nearZero < c.dominance x.2 := by
      refine ⟨fun h => ?_, Scalar.Lawful.not_le_of_lt⟩
      exact Scalar.Ordered.lt_of_not_le (hdefined _) (Scalar.Ordered.defined_of_lt Scalar.Lawful.nearZero_pos).2 h
    -- of all terms only `x` names the variable
    obtain ⟨before, after, hsplit⟩ := List.append_of_mem hx
    have hvars : (c.terms.zipIdx.map fun x => x.1.var).Nodup := by
      rw [map_zipIdx_fst Term.var]
      exact hdistinct
    rw [hsplit, List.map_append, List.map_cons, List.nodup_append, List.nodup_cons] at hvars
    obtain ⟨-, ⟨hafter, -⟩, hbefore⟩ := hvars
    rw [hsplit, List.foldl_append, List.foldl_cons, best_foldl_of_ne, best_noteTerm, best_foldl_of_ne, hshare]
    · simp [hiff]
    · exact fun y hy => hbefore _ (List.mem_map.mpr ⟨y, hy, rfl⟩) _ List.mem_cons_self
    · exact fun y hy heq => hafter (List.mem_map.mpr ⟨y, hy, heq⟩)
  · rw [best_foldl_of_ne _ fun x hx heq => hv ⟨x, hx, heq⟩, if_neg]
    intro hlt
    obtain ⟨i, t, -, ht, hvar, -⟩ := Constraint.exists_term_of_influence hlt
    exact hv ⟨(t, i), List.mem_zipIdx_iff_getElem?.mpr ht, hvar⟩

variable {list : List (ConstraintId × Constraint α)} {s : System α} {ids : List ConstraintId} {vs : List Variable}
  {limit : Option Nat}

/-- **The map holds the heaviest rivals** among the candidates, in the order in which they were dealt with. -/
theorem known_best [Scalar.Divisible α] (hdistinct : ∀ x ∈ list, (x.2.terms.map (·.var)).Nodup)
    (hfinite : ∀ x ∈ list, ∀ t ∈ x.2.terms, Scalar.isFinite t.coefficient = true) :
    ∃ dealt : List (ConstraintId × Constraint α), dealt.Perm list ∧
      ∀ v, (known list).shares.best? v = heaviest (rivals dealt v) := by
  obtain ⟨done, hdone, h⟩ := known_induction list (motive := fun done st => ∀ v, st.shares.best? v =
      heaviest (rivals (done.reverse.map fun x => (x.id, x.constraint)) v)) (fun _ => rfl) (by
    intro done st pending x others hall h htake v
    have hx : (x.id, x.constraint) ∈ list :=
      mem_of_candidate (hall.mem_iff.mp (List.mem_append_right _ (mem_of_takeFewest htake)))
    rw [step_shares, Shares.best_noteAll _ _ (hdistinct _ hx) (Constraint.dominance_defined (hfinite _ hx)), h v,
      List.reverse_cons, List.map_append, List.map_singleton, rivals_concat]
    split
    · rw [heaviest_concat]
    · rw [List.append_nil])
  refine ⟨_, ?_, h⟩
  have hlist : (candidates list).map (fun x => (x.id, x.constraint)) = list := by
    rw [candidates, List.map_map]
    exact List.zipIdx_map_fst 0 list
  have hperm := (done.reverse_perm.trans hdone).map fun x => (x.id, x.constraint)
  rwa [hlist] at hperm

theorem select_led (s : System α) (ids : List ConstraintId) (vs : List Variable) (limit : Option Nat) :
    PivotEntry.Led (known (considered s ids limit)).shares.source? (select s ids vs limit).entries := by
  rw [select_entries]
  exact List.foldlRecOn _ _ (PivotEntry.led_of_primary primaries_primary) fun es hes x hx =>
    hes.insertDuplicate (source_of_adoption hx)

end Deterministic

/-! ## The two phases -/

namespace TwoPhase

variable {list : List (ConstraintId × Constraint α)} {entries : List PivotEntry} {v : Variable}

theorem governed_led (h : PivotEntry.Led (globalSource? list) entries) (v : Variable) :
    PivotEntry.Led (globalSource? list) (governed list entries v) := by
  unfold governed govern
  split
  · rename_i source hs
    split
    · exact h
    · exact h.insertDuplicate hs
  · exact h

theorem subset_governed (list : List (ConstraintId × Constraint α)) (entries : List PivotEntry) (v : Variable) :
    entries ⊆ governed list entries v := by
  unfold governed govern
  split
  · split
    · exact List.Subset.refl _
    · exact fun e he => (PivotEntry.insertDuplicate_perm _ _ _).mem_iff.mpr (List.mem_cons_of_mem _ he)
  · exact List.Subset.refl _

theorem mem_governed (entries : List PivotEntry) {source : ConstraintId} (hs : globalSource? list v = some source) :
    ∃ e ∈ governed list entries v, e.constraint = source ∧ e.pivot = v := by
  unfold governed govern
  rw [hs]
  dsimp only
  split
  · rename_i hany
    obtain ⟨e, he, hboth⟩ := List.any_eq_true.mp hany
    simp only [Bool.and_eq_true, decide_eq_true_eq] at hboth
    exact ⟨e, he, hboth⟩
  · exact ⟨⟨source, v, true⟩, (PivotEntry.insertDuplicate_perm _ _ _).mem_iff.mpr List.mem_cons_self, rfl, rfl⟩

/-- **Every variable of a list has an entry where it weighs most**, whatever entries there were. -/
theorem mem_foldl_governed (entries : List PivotEntry) (vs : List Variable) (hv : v ∈ vs) {source : ConstraintId}
    (hs : globalSource? list v = some source) :
    ∃ e ∈ vs.foldl (governed list) entries, e.constraint = source ∧ e.pivot = v := by
  induction vs generalizing entries with
  | nil => cases hv
  | cons w vs ih =>
    rcases List.mem_cons.mp hv with rfl | hv
    · obtain ⟨e, he, hrest⟩ := mem_governed entries hs
      -- the entries for the other variables are added
      have hkept : governed list entries v ⊆ vs.foldl (governed list) (governed list entries v) :=
        List.foldlRecOn (motive := fun es => governed list entries v ⊆ es) vs _ (List.Subset.refl _)
          fun es hes w _ => List.Subset.trans hes (subset_governed list es w)
      exact ⟨e, hkept he, hrest⟩
    · exact ih _ hv

variable [Generator γ] [Generator.Lawful γ] {s : System α} {ids : List ConstraintId} {vs : List Variable}
  {limit : Option Nat}

/-- What a selection returns is what governing the variables gives, in another order. -/
theorem select_perm (g : γ) (distance : Nat) (s : System α) (ids : List ConstraintId) (vs : List Variable)
    (limit : Option Nat) : (select g distance s ids vs limit).1.entries.Perm
      (vs.foldl (governed (considered s ids limit))
        ((considered s ids limit).filterMap fun (id, c) => c.dominantPivot?.bind (c.entryAt? id))) := by
  rw [← foldl_govern vs _ 0]
  exact spacedShuffle_perm g distance _

theorem select_led (g : γ) (distance : Nat) (s : System α) (ids : List ConstraintId) (vs : List Variable)
    (limit : Option Nat) :
    PivotEntry.Led (globalSource? (considered s ids limit)) (select g distance s ids vs limit).1.entries := by
  have hprimary : ∀ e ∈ (considered s ids limit).filterMap fun (id, c) => c.dominantPivot?.bind (c.entryAt? id),
      e.duplicate = false := by
    intro e he
    obtain ⟨⟨id, c⟩, -, hx⟩ := List.mem_filterMap.mp he
    obtain ⟨i, -, hentry⟩ := Option.bind_eq_some_iff.mp hx
    obtain ⟨t, -, rfl⟩ := entryAt_spec c id hentry
    rfl
  have hled := List.foldlRecOn (motive := PivotEntry.Led (globalSource? (considered s ids limit))) vs _
    (PivotEntry.led_of_primary hprimary) fun es hes v _ => governed_led hes v
  exact fun e he => hled e ((select_perm g distance s ids vs limit).mem_iff.mp he)

end TwoPhase

/-! ## All selectors -/

section Selectors

variable [Generator γ] [Generator.Lawful γ] {s : System α} {ids : List ConstraintId} {limit : Option Nat}

/-- **A duplicate stands where its pivot is foremost**: its constraint is the earliest one in which its pivot
has its greatest share, in a list that has all of these and only considered ones. -/
theorem Selector.duplicate_foremost [Scalar.Divisible α] (selector : Selector γ) (vs : List Variable)
    (hdistinct : ∀ x ∈ considered s ids limit, (x.2.terms.map (·.var)).Nodup)
    (hfinite : ∀ x ∈ considered s ids limit, ∀ t ∈ x.2.terms, Scalar.isFinite t.coefficient = true) {e : PivotEntry}
    (he : e ∈ (selector.select s ids vs limit).1.entries) (hduplicate : e.duplicate = true) :
    ∃ list, list ⊆ considered s ids limit ∧ (∀ x ∈ considered s ids limit, x.2.IsHeavy → x ∈ list) ∧
      ∃ c, Foremost list e.pivot e.constraint c := by
  -- the three selectors differ only in the list whose rivals they search
  have key : ∀ list ⊆ considered s ids limit, (heaviest (rivals list e.pivot)).map (·.1) = some e.constraint →
      ∃ c, Foremost list e.pivot e.constraint c := by
    intro list hsub hsearch
    obtain ⟨y, hy, hid⟩ := Option.map_eq_some_iff.mp hsearch
    obtain ⟨c, hforemost, -⟩ :=
      foremost_of_heaviest (fun x hx => Constraint.influence_defined (hfinite x (hsub hx)) e.pivot) hy
    exact ⟨c, hid ▸ hforemost⟩
  cases selector with
  | deterministic =>
    obtain ⟨dealt, hperm, hbest⟩ := Deterministic.known_best hdistinct hfinite
    refine ⟨dealt, hperm.subset, fun x hx _ => hperm.mem_iff.mpr hx, key _ hperm.subset ?_⟩
    rw [← hbest, ← Deterministic.Shares.source_eq]
    exact Deterministic.select_led s ids vs limit e he hduplicate
  | twoPhase g distance =>
    refine ⟨_, List.Subset.refl _, fun x hx _ => hx, key _ (List.Subset.refl _) ?_⟩
    exact TwoPhase.select_led g distance s ids vs limit e he hduplicate
  | uniform g retries =>
    have hchosen : Chosen (considered s ids limit) (Uniform.drawAll retries (considered s ids limit) g).1 :=
      Uniform.drawAll_chosen (fun x hx t ht => Scalar.Lawful.defined_of_isFinite (hfinite x hx t ht)) retries g
    -- the constraints with a primary entry; one without it has no weight, hence no rival
    have hserved : PivotEntry.served s (Uniform.drawAll retries (considered s ids limit) g).1 ⊆
        considered s ids limit := by
      intro x hx
      obtain ⟨d, hd, hdx⟩ := List.mem_filterMap.mp hx
      obtain ⟨c, hc, rfl⟩ := Option.map_eq_some_iff.mp hdx
      obtain ⟨c', hmem, -⟩ := hchosen.named d (List.mem_filter.mp hd).1
      obtain rfl := Option.some.inj (hc.symm.trans (mem_considered hmem).1)
      exact hmem
    refine ⟨_, hserved, fun x hx hheavy => ?_, key _ hserved ?_⟩
    · obtain ⟨d, hd, hid⟩ := hchosen.heavy x hx hheavy
      refine List.mem_filterMap.mpr ⟨d, List.mem_filter.mpr ⟨hd, by simp [hchosen.primary d hd]⟩, ?_⟩
      rw [hid, (mem_considered hx).1]
      rfl
    · rw [← PivotEntry.mostInfluential_eq]
      exact PivotEntry.fillOrphans_led hchosen.primary vs e he hduplicate

/-- A variable that a two-phase selection is asked about has an entry where its share is greatest, if that share does not
count as zero. -/
theorem TwoPhase.exists_foremost [Scalar.Divisible α] (g : γ) (distance : Nat) {vs : List Variable}
    (hfinite : ∀ x ∈ considered s ids limit, ∀ t ∈ x.2.terms, Scalar.isFinite t.coefficient = true) {v : Variable}
    (hv : v ∈ vs) {x : ConstraintId × Constraint α} (hx : x ∈ considered s ids limit)
    (hshare : nearZero < x.2.influence v) :
    ∃ id c, Foremost (considered s ids limit) v id c ∧
      ∃ e ∈ (select g distance s ids vs limit).1.entries, e.constraint = id ∧ e.pivot = v := by
  obtain ⟨y, hy⟩ := exists_heaviest (mem_rivals hx hshare)
  obtain ⟨c, hforemost, -⟩ := foremost_of_heaviest (fun x hx => Constraint.influence_defined (hfinite x hx) v) hy
  have hsource : globalSource? (considered s ids limit) v = some y.1 := by
    show (heaviest (rivals (considered s ids limit) v)).map (·.1) = _
    rw [hy]
    rfl
  obtain ⟨e, he, hentry⟩ := mem_foldl_governed _ vs hv hsource
  exact ⟨y.1, c, hforemost, e, (select_perm g distance s ids vs limit).mem_iff.mpr he, hentry⟩

namespace Model

/-- **Duplicates go where their pivot matters most.**  Take a model after any history, with finite weights, and let any
selector choose pivots for a list of constraints, any variables and any limit.

* In no considered constraint in which something weighs does the pivot of a duplicate have a greater share than in the
  constraint of the duplicate.
* A two-phase selector gives each variable that it is asked about, and that has a share above what counts as zero in some
  considered constraint, an entry of the earliest considered constraint in which its share is greatest. -/
theorem duplicates_most_influential [Scalar.Divisible α] {σ : Type} [Solver α σ] [Solver.Lawful α σ] (i : Nat)
    (x : Option σ) (actions : List (Action α σ)) (selector : Selector γ) (ids : List ConstraintId) (vs : List Variable)
    (limit : Option Nat)
    (hfinite : ∀ id c, ((Model.new i x).perform actions).system.constraint? id = some c →
      ∀ t ∈ c.terms, Scalar.isFinite t.coefficient = true) :
    let s := ((Model.new i x).perform actions).system
    let list := considered s ids limit
    let entries := (selector.select s ids vs limit).1.entries
    (∀ e ∈ entries, e.duplicate = true → ∃ c, (e.constraint, c) ∈ list ∧ ∀ y ∈ list,
      (∃ t ∈ y.2.terms, nearZero < Scalar.abs t.coefficient) → y.2.influence e.pivot ≤ c.influence e.pivot) ∧
    ∀ g distance, selector = .twoPhase g distance → ∀ v ∈ vs, (∃ y ∈ list, nearZero < y.2.influence v) →
      ∃ before id c after, list = before ++ (id, c) :: after ∧ (∀ y ∈ before, y.2.influence v < c.influence v) ∧
        (∀ y ∈ after, y.2.influence v ≤ c.influence v) ∧ ∃ e ∈ entries, e.constraint = id ∧ e.pivot = v := by
  intro s list entries
  have hs : s.WellFormed := (perform_sound i x actions).1
  have hfinite' : ∀ y ∈ list, ∀ t ∈ y.2.terms, Scalar.isFinite t.coefficient = true :=
    fun y hy => hfinite y.1 y.2 (mem_considered hy).1
  refine ⟨fun e he hduplicate => ?_, ?_⟩
  · obtain ⟨heavy, hsub, hall, c, hforemost⟩ := selector.duplicate_foremost vs
      (fun y hy => (hs.fits (mem_considered hy).1).distinct) hfinite' he hduplicate
    refine ⟨c, hsub hforemost.mem, fun y hy hweight => ?_⟩
    exact Scalar.le_of_not_lt (Constraint.influence_defined (hfinite' y hy) _)
      (Constraint.influence_defined (hfinite' _ (hsub hforemost.mem)) _) (hforemost.not_lt (hall y hy hweight))
  · rintro g distance rfl v hv ⟨y, hy, hshare⟩
    obtain ⟨id, c, ⟨before, after, hlist, hbefore, hafter⟩, hentry⟩ :=
      TwoPhase.exists_foremost g distance hfinite' hv hy hshare
    exact ⟨before, id, c, after, hlist, hbefore, hafter, hentry⟩

/-- Two equalities over binary64 with the same dominant variable, selected in two phases: the other variable gets a duplicate
of the first equality, in which its share is greater, although its weights are the same. -/
theorem duplicates_most_influential_of_overlap :
    let actions : List (Action Float (AnySolver (Engine Float KeyStream))) :=
      [.edit (.addVariable none), .edit (.addVariable none),
        .edit (.add ⟨[⟨4, ⟨0, 0⟩⟩, ⟨1, ⟨0, 1⟩⟩], .eq, .fixed 5, 1, true, none, none⟩),
        .edit (.add ⟨[⟨2, ⟨0, 0⟩⟩, ⟨1, ⟨0, 1⟩⟩], .eq, .fixed 3, 1, true, none, none⟩)]
    let s := ((Model.new 0 none).perform actions).system
    let list := considered s [⟨0⟩, ⟨1⟩] none
    let selector : Selector KeyStream := .twoPhase (.ofSeed 7) 2
    let entries := (selector.select s [⟨0⟩, ⟨1⟩] [⟨0, 0⟩, ⟨0, 1⟩] none).1.entries
    ⟨⟨1⟩, ⟨0, 1⟩, true⟩ ∈ entries ∧
      (∃ c, (⟨1⟩, c) ∈ list ∧ ∀ y ∈ list, (∃ t ∈ y.2.terms, nearZero < Scalar.abs t.coefficient) →
        y.2.influence ⟨0, 1⟩ ≤ c.influence ⟨0, 1⟩) ∧
      ∃ before id c after, list = before ++ (id, c) :: after ∧
        (∀ y ∈ before, y.2.influence ⟨0, 1⟩ < c.influence ⟨0, 1⟩) ∧
        (∀ y ∈ after, y.2.influence ⟨0, 1⟩ ≤ c.influence ⟨0, 1⟩) ∧ ∃ e ∈ entries, e.constraint = id ∧ e.pivot = ⟨0, 1⟩ := by
  intro actions s list selector entries
  have hfinite : ∀ id c, s.constraint? id = some c → ∀ t ∈ c.terms, Scalar.isFinite t.coefficient = true :=
    System.finite_of_all (by decide +kernel)
  have hmem : ⟨⟨1⟩, ⟨0, 1⟩, true⟩ ∈ entries := by decide +kernel
  have hshare : ∃ y ∈ list, nearZero < y.2.influence ⟨0, 1⟩ := by decide +kernel
  obtain ⟨hgreatest, hgiven⟩ :=
    duplicates_most_influential 0 none actions selector [⟨0⟩, ⟨1⟩] [⟨0, 0⟩, ⟨0, 1⟩] none hfinite
  refine ⟨hmem, ?_, ?_⟩
  · have h := hgreatest ⟨⟨1⟩, ⟨0, 1⟩, true⟩ (by with_reducible exact hmem) rfl
    dsimp only at h
    with_reducible exact h
  · have h := hgiven (.ofSeed 7) 2 rfl ⟨0, 1⟩ (by decide) (by with_reducible exact hshare)
    with_reducible exact h

end Model

end Selectors

end SoftLinear
