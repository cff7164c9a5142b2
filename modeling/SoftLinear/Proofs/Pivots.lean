import Mathlib.Data.List.Nodup
import SoftLinear.Pivot.Entry
import SoftLinear.Proofs.Outline
import SoftLinear.Proofs.ScalarLaws

/-!
# What pivot entries have to provide

A list of pivot entries serves a list of constraints (`PivotEntry.Serves`) when each constraint in which something
weighs has its one primary entry, with a pivot that weighs something, each variable that weighs in one of them has an
entry, and each entry names a constraint of the list and a variable of it.

The part without the variables (`PivotEntry.Founded`) does not care for the order of the entries and stays when a
duplicate is put in.  So a selection proceeds in two steps: found the list, then give an entry to one variable after the
other (`Founded.foldl`).  Removing a constraint takes its entries out and repeats the second step for their pivots.
-/

namespace SoftLinear

/-! ## The heaviest candidate -/

section Heaviest

variable {β ω : Type} [LT ω] [DecidableLT ω]

/-- The heavier of a candidate and the best so far. -/
def heavier (best : Option (β × ω)) (x : β × ω) : Option (β × ω) :=
  match best with
  | some b => if b.2 < x.2 then some x else some b
  | none => some x

theorem exists_foldl_heavier (l : List (β × ω)) (b : β × ω) :
    ∃ x, l.foldl heavier (some b) = some x ∧ (x = b ∨ x ∈ l) := by
  induction l generalizing b with
  | nil => exact ⟨b, rfl, .inl rfl⟩
  | cons y l ih =>
    by_cases hlt : b.2 < y.2
    · obtain ⟨x, hx, hmem⟩ := ih y
      refine ⟨x, ?_, .inr ?_⟩
      · rw [List.foldl_cons, heavier, if_pos hlt, hx]
      · rcases hmem with rfl | hmem
        · exact List.mem_cons_self
        · exact List.mem_cons_of_mem _ hmem
    · obtain ⟨x, hx, hmem⟩ := ih b
      refine ⟨x, ?_, hmem.imp_right fun h => List.mem_cons_of_mem _ h⟩
      rw [List.foldl_cons, heavier, if_neg hlt, hx]

theorem heaviest_mem {l : List (β × ω)} {x : β × ω} (h : heaviest l = some x) : x ∈ l := by
  cases l with
  | nil => cases h
  | cons b l =>
    obtain ⟨y, hy, hmem⟩ := exists_foldl_heavier l b
    have hxy : x = y := Option.some.inj (h.symm.trans hy)
    rw [hxy]
    exact hmem.elim (fun e => e ▸ List.mem_cons_self) fun h => List.mem_cons_of_mem _ h

theorem exists_heaviest {l : List (β × ω)} {x : β × ω} (h : x ∈ l) : ∃ y, heaviest l = some y := by
  cases l with
  | nil => cases h
  | cons b l =>
    obtain ⟨y, hy, -⟩ := exists_foldl_heavier l b
    exact ⟨y, hy⟩

/-- What is not heavier than another by an order that the comparison of defined weights decides is not heavier than the
heaviest candidate. -/
theorem heaviest_dominates (below : ω → ω → Prop) (defined : ω → Prop) (hrefl : ∀ a, below a a)
    (htrans : ∀ {a b c}, below a b → below b c → below a c) (hlt : ∀ {a b}, a < b → below a b)
    (hnot : ∀ {a b}, defined a → ¬ a < b → below b a) {l : List (β × ω)} {x : β × ω} (hdefined : ∀ y ∈ l, defined y.2)
    (h : heaviest l = some x) : ∀ y ∈ l, below y.2 x.2 := by
  -- the fold with the candidate so far, since a defined start has to be carried along
  have key : ∀ (l : List (β × ω)) (b : β × ω), defined b.2 → (∀ y ∈ l, defined y.2) →
      l.foldl heavier (some b) = some x → ∀ y ∈ b :: l, below y.2 x.2 := by
    intro l
    induction l with
    | nil =>
      intro b _ _ h y hy
      obtain rfl := Option.some.inj h
      obtain rfl := List.mem_singleton.mp hy
      exact hrefl _
    | cons z l ih =>
      intro b hb hall h y hy
      obtain ⟨hz, hl⟩ := List.forall_mem_cons.mp hall
      rw [List.foldl_cons, heavier] at h
      -- `b` and `z` are the candidates so far: the other one is below the one that is kept
      split at h
      · rename_i hbz
        rcases List.mem_cons.mp hy with rfl | hy
        · exact htrans (hlt hbz) (ih z hz hl h z List.mem_cons_self)
        · exact ih z hz hl h y hy
      · rename_i hbz
        rcases List.mem_cons.mp hy with rfl | hy
        · exact ih y hb hl h y List.mem_cons_self
        · rcases List.mem_cons.mp hy with rfl | hy
          · exact htrans (hnot hb hbz) (ih b hb hl h b List.mem_cons_self)
          · exact ih b hb hl h y (List.mem_cons_of_mem _ hy)
  cases l with
  | nil => cases h
  | cons b l =>
    obtain ⟨hb, hl⟩ := List.forall_mem_cons.mp hdefined
    exact key l b hb hl h

theorem lt_heaviest {α : Type} [Scalar α] [Scalar.Lawful α] {l : List (β × α)} {x : β × α} {bound : α}
    (hdefined : ∀ y ∈ l, Scalar.isNaN y.2 = false) (h : heaviest l = some x) :
    ∀ y ∈ l, bound < y.2 → bound < x.2 := by
  intro y hy hlt
  -- being below means being above no more bounds
  refine heaviest_dominates (fun a b => ∀ bound, bound < a → bound < b) (Scalar.isNaN · = false) ?_ ?_ ?_ ?_ hdefined h
    y hy bound hlt
  · exact fun _ _ => id
  · exact fun hab hbc bound hbound => hbc bound (hab bound hbound)
  · exact fun hab bound hbound => Scalar.Lawful.lt_trans hbound hab
  · exact fun ha hab bound hbound => (Scalar.Lawful.lt_or_lt hbound ha).resolve_right hab

theorem le_heaviest {l : List (β × Nat)} {x : β × Nat} (h : heaviest l = some x) : ∀ y ∈ l, y.2 ≤ x.2 :=
  heaviest_dominates (· ≤ ·) (fun _ => True) le_refl le_trans le_of_lt (fun _ => not_lt.mp) (fun _ _ => True.intro) h

end Heaviest

/-! ## Weights -/

namespace Constraint

variable {α : Type} [Scalar α]

/-- Some term weighs something. -/
def IsHeavy (c : Constraint α) : Prop := ∃ t ∈ c.terms, nearZero < Scalar.abs t.coefficient

/-- A variable stands in a term that weighs something. -/
def Bears (c : Constraint α) (v : Variable) : Prop := ∃ t ∈ c.terms, t.var = v ∧ nearZero < Scalar.abs t.coefficient

/-- A variable weighs something, and has a share that is not almost zero. -/
def Weighs (c : Constraint α) (v : Variable) : Prop :=
  nearZero < Scalar.abs (c.coefficientOf v) ∧ nearZero < c.influence v

/-- No weight is undefined. -/
def Defined (c : Constraint α) : Prop := ∀ t ∈ c.terms, Scalar.isNaN t.coefficient = false

variable {c d : Constraint α} {v : Variable}

theorem isHeavy_congr (h : d.terms = c.terms) : d.IsHeavy ↔ c.IsHeavy := by
  unfold IsHeavy
  rw [h]

theorem bears_congr (h : d.terms = c.terms) (v : Variable) : d.Bears v ↔ c.Bears v := by
  unfold Bears
  rw [h]

theorem Bears.mem_vars (h : c.Bears v) : v ∈ c.terms.map (·.var) := by
  obtain ⟨t, ht, hvar, -⟩ := h
  exact List.mem_map.mpr ⟨t, ht, hvar⟩

theorem Bears.isHeavy (h : c.Bears v) : c.IsHeavy := by
  obtain ⟨t, ht, -, hweight⟩ := h
  exact ⟨t, ht, hweight⟩

theorem weighs_congr (h : d.terms = c.terms) (v : Variable) : d.Weighs v ↔ c.Weighs v := by
  unfold Weighs coefficientOf influence position? dominance absSum
  rw [h]

theorem exists_term_of_influence [Scalar.Lawful α] (h : nearZero < c.influence v) :
    ∃ i t, c.position? v = some i ∧ c.terms[i]? = some t ∧ t.var = v ∧ c.influence v = c.dominance i := by
  unfold influence at h ⊢
  cases hp : c.position? v with
  | none =>
    rw [hp] at h
    exact absurd (Scalar.Lawful.lt_trans h Scalar.Lawful.nearZero_pos) (Scalar.Lawful.lt_irrefl _)
  | some i =>
    obtain ⟨hlt, hvar, -⟩ := List.findIdx?_eq_some_iff_getElem.mp hp
    exact ⟨i, c.terms[i], rfl, by simp [hlt], by simpa using hvar, rfl⟩

theorem mem_vars_of_influence [Scalar.Lawful α] (h : nearZero < c.influence v) :
    v ∈ c.terms.map (·.var) := by
  obtain ⟨i, t, -, ht, hvar, -⟩ := exists_term_of_influence h
  exact List.mem_map.mpr ⟨t, List.mem_of_getElem? ht, hvar⟩

theorem Weighs.isHeavy [Scalar.Lawful α] (h : c.Weighs v) : c.IsHeavy := by
  obtain ⟨hweight, hshare⟩ := h
  obtain ⟨i, t, -, ht, hvar, -⟩ := exists_term_of_influence hshare
  unfold coefficientOf at hweight
  cases hf : c.terms.find? (·.var = v) with
  | none =>
    have hnone := List.find?_eq_none.mp hf t (List.mem_of_getElem? ht)
    simp [hvar] at hnone
  | some u =>
    rw [hf] at hweight
    exact ⟨u, List.mem_of_find?_eq_some hf, hweight⟩

theorem dominantPivot_bears {i : Nat} {t : Term α} (h : c.dominantPivot? = some i) (ht : c.terms[i]? = some t) :
    c.Bears t.var := by
  obtain ⟨-, hweight⟩ := Option.filter_eq_some_iff.mp h
  rw [ht] at hweight
  exact ⟨t, List.mem_of_getElem? ht, rfl, of_decide_eq_true hweight⟩

/-- **A heavy constraint has a dominant pivot**, and it is one of its terms. -/
theorem exists_dominantPivot [Scalar.Lawful α] (hdefined : c.Defined) (h : c.IsHeavy) :
    ∃ i t, c.dominantPivot? = some i ∧ c.terms[i]? = some t := by
  obtain ⟨t, ht, hweight⟩ := h
  have hmagnitudes : ∀ x ∈ c.magnitudes, ∃ u, c.terms[x.1]? = some u ∧ x.2 = Scalar.abs u.coefficient := by
    intro x hx
    obtain ⟨⟨u, i⟩, hu, rfl⟩ := List.mem_map.mp hx
    exact ⟨u, List.mem_zipIdx_iff_getElem?.mp hu, rfl⟩
  obtain ⟨k, hk⟩ := List.mem_iff_getElem?.mp ht
  have hmem : (k, Scalar.abs t.coefficient) ∈ c.magnitudes :=
    List.mem_map.mpr ⟨(t, k), List.mem_zipIdx_iff_getElem?.mpr hk, rfl⟩
  obtain ⟨x, hx⟩ := exists_heaviest hmem
  obtain ⟨u, hu, hxu⟩ := hmagnitudes x (heaviest_mem hx)
  have hnan : ∀ y ∈ c.magnitudes, Scalar.isNaN y.2 = false := by
    intro y hy
    obtain ⟨w, hw, hyw⟩ := hmagnitudes y hy
    rw [hyw, Scalar.Lawful.isNaN_abs]
    exact hdefined w (List.mem_of_getElem? hw)
  have hlt := lt_heaviest hnan hx _ hmem hweight
  refine ⟨x.1, u, ?_, hu⟩
  unfold dominantPivot? dominant?
  rw [hx, Option.map_some, Option.filter_some, hu]
  simp [← hxu, hlt]

end Constraint

/-! ## Lists of entries -/

namespace PivotEntry

variable {α : Type} {s t : System α} {ids : List ConstraintId} {entries : List PivotEntry} {v : Variable}

theorem insertDuplicate_perm (source : ConstraintId) (v : Variable) (entries : List PivotEntry) :
    (insertDuplicate source v entries).Perm (⟨source, v, true⟩ :: entries) := by
  induction entries with
  | nil => exact .refl _
  | cons e rest ih =>
    unfold insertDuplicate
    split
    · exact List.Perm.swap _ _ _
    · exact (ih.cons e).trans (List.Perm.swap _ _ _)

/-- An identifier of a list that names a constraint with a variable. -/
def Fits (s : System α) (ids : List ConstraintId) (id : ConstraintId) (v : Variable) : Prop :=
  id ∈ ids ∧ ∃ c, s.constraint? id = some c ∧ v ∈ c.terms.map (·.var)

variable [Scalar α]

/-- Each heavy constraint of a list has one primary entry, each primary pivot weighs something in its constraint, and each
entry fits. -/
structure Founded (s : System α) (ids : List ConstraintId) (entries : List PivotEntry) : Prop where
  present : ∀ id ∈ ids, ∀ c, s.constraint? id = some c → c.IsHeavy →
    ∃ e ∈ entries, e.constraint = id ∧ e.duplicate = false
  single : ((entries.filter (!·.duplicate)).map (·.constraint)).Nodup
  weighs : ∀ e ∈ entries, e.duplicate = false → ∃ c, s.constraint? e.constraint = some c ∧ c.Bears e.pivot
  fits : ∀ e ∈ entries, Fits s ids e.constraint e.pivot

/-- A variable weighs in some constraint of a list. -/
def Wanted (s : System α) (ids : List ConstraintId) (v : Variable) : Prop :=
  ∃ id ∈ ids, ∃ c, s.constraint? id = some c ∧ c.Weighs v

/-- **Entries serve a list of constraints**: they are founded, and each wanted variable is a pivot. -/
structure Serves (s : System α) (ids : List ConstraintId) (entries : List PivotEntry) : Prop
    extends Founded s ids entries where
  covers : ∀ v, Wanted s ids v → ∃ e ∈ entries, e.pivot = v

/-- **Each heavy constraint has exactly one primary entry.** -/
theorem Founded.countP_primary (h : Founded s ids entries) {id : ConstraintId} (hid : id ∈ ids) {c : Constraint α}
    (hc : s.constraint? id = some c) (hheavy : c.IsHeavy) :
    entries.countP (fun e => e.constraint = id && !e.duplicate) = 1 := by
  obtain ⟨e, he, heid, hprimary⟩ := h.present id hid c hc hheavy
  have hmem : id ∈ (entries.filter (!·.duplicate)).map (·.constraint) :=
    List.mem_map.mpr ⟨e, List.mem_filter.mpr ⟨he, by simp [hprimary]⟩, heid⟩
  have hcount := List.count_eq_one_of_mem h.single hmem
  rw [List.count, List.countP_map, List.countP_filter] at hcount
  rw [← hcount]
  rfl

/-- **A constraint in which nothing weighs has no primary entry.** -/
theorem Founded.countP_primary_of_light (h : Founded s ids entries) {id : ConstraintId} {c : Constraint α}
    (hc : s.constraint? id = some c) (hlight : ¬ c.IsHeavy) :
    entries.countP (fun e => e.constraint = id && !e.duplicate) = 0 := by
  rw [List.countP_eq_zero]
  intro e he hboth
  simp only [Bool.and_eq_true, decide_eq_true_eq, Bool.not_eq_true'] at hboth
  obtain ⟨d, hd, hbears⟩ := h.weighs e he hboth.2
  rw [hboth.1, hc] at hd
  obtain rfl := Option.some.inj hd
  exact hlight hbears.isHeavy

theorem Founded.perm {entries' : List PivotEntry} (h : Founded s ids entries) (hp : entries'.Perm entries) :
    Founded s ids entries' where
  present id hid c hc hheavy := by
    obtain ⟨e, he, hrest⟩ := h.present id hid c hc hheavy
    exact ⟨e, hp.mem_iff.mpr he, hrest⟩
  single := (((hp.filter _).map _).nodup_iff).mpr h.single
  weighs e he := h.weighs e (hp.mem_iff.mp he)
  fits e he := h.fits e (hp.mem_iff.mp he)

theorem Founded.insertDuplicate (h : Founded s ids entries) {source : ConstraintId} (hfits : Fits s ids source v) :
    Founded s ids (insertDuplicate source v entries) := by
  refine Founded.perm ?_ (insertDuplicate_perm source v entries)
  refine ⟨?_, ?_, ?_, ?_⟩
  · intro id hid c hc hheavy
    obtain ⟨e, he, hrest⟩ := h.present id hid c hc hheavy
    exact ⟨e, List.mem_cons_of_mem _ he, hrest⟩
  · rw [List.filter_cons_of_neg (by simp)]
    exact h.single
  · exact List.forall_mem_cons.mpr ⟨nofun, h.weighs⟩
  · exact List.forall_mem_cons.mpr ⟨hfits, h.fits⟩

theorem Founded.give (h : Founded s ids entries) {source : ConstraintId} (hfits : Fits s ids source v) :
    Founded s ids (PivotEntry.insertDuplicate source v entries) ∧
      entries ⊆ PivotEntry.insertDuplicate source v entries ∧
      ∃ e ∈ PivotEntry.insertDuplicate source v entries, e.pivot = v := by
  have hperm := insertDuplicate_perm source v entries
  refine ⟨h.insertDuplicate hfits, ?_, ?_⟩
  · exact fun e he => hperm.mem_iff.mpr (List.mem_cons_of_mem _ he)
  · exact ⟨⟨source, v, true⟩, hperm.mem_iff.mpr List.mem_cons_self, rfl⟩

/-- Entries that are founded, and of which the given ones stay, after each of a list of steps that each give an entry to
one variable. -/
theorem Founded.foldl {β : Type} {step : List PivotEntry → β → List PivotEntry} {need : β → Prop}
    (h : Founded s ids entries) (l : List β) (target : β → Variable)
    (hstep : ∀ x ∈ l, ∀ es, Founded s ids es → Founded s ids (step es x) ∧ es ⊆ step es x ∧
      (need x → ∃ e ∈ step es x, e.pivot = target x)) :
    Founded s ids (l.foldl step entries) ∧ entries ⊆ l.foldl step entries ∧
      ∀ x ∈ l, need x → ∃ e ∈ l.foldl step entries, e.pivot = target x := by
  induction l generalizing entries with
  | nil => exact ⟨h, List.Subset.refl _, by simp⟩
  | cons x l ih =>
    obtain ⟨hx, hrest⟩ := List.forall_mem_cons.mp hstep
    obtain ⟨hfounded, hkept, hgiven⟩ := hx entries h
    obtain ⟨hall, hsub, hlater⟩ := ih hfounded hrest
    refine ⟨hall, fun e he => hsub (hkept he), List.forall_mem_cons.mpr ⟨?_, hlater⟩⟩
    intro hneed
    obtain ⟨e, he, hpivot⟩ := hgiven hneed
    exact ⟨e, hsub he, hpivot⟩

/-! ## Adopting variables -/

omit [Scalar α] in
/-- What is left of a list of constraints in another system has the terms that it had: some of them may be gone. -/
def Remains (s t : System α) (ids : List ConstraintId) : Prop :=
  ∀ id ∈ ids, ∀ c, t.constraint? id = some c → ∃ d, s.constraint? id = some d ∧ c.terms = d.terms

omit [Scalar α] in
theorem Remains.refl (s : System α) (ids : List ConstraintId) : Remains s s ids := fun _ _ c hc => ⟨c, hc, rfl⟩

theorem exists_mostInfluential [Scalar.Lawful α] (h : Founded s ids entries) (ht : Remains s t ids)
    (hv : Wanted t ids v) : ∃ source, mostInfluential? t entries v = some source := by
  obtain ⟨id, hid, c, hc, hweighs⟩ := hv
  obtain ⟨d, hd, hterms⟩ := ht id hid c hc
  obtain ⟨e, he, rfl, hprimary⟩ := h.present id hid d hd ((Constraint.isHeavy_congr hterms).mp hweighs.isHeavy)
  have hmem : (e.constraint, c.influence v) ∈ (((entries.filter (!·.duplicate)).filterMap fun e =>
      (t.constraint? e.constraint).map fun c => (e.constraint, c.influence v)).filter fun x => nearZero < x.2) := by
    refine List.mem_filter.mpr ⟨List.mem_filterMap.mpr ⟨e, ?_, by rw [hc]; rfl⟩, decide_eq_true hweighs.2⟩
    exact List.mem_filter.mpr ⟨he, by simp [hprimary]⟩
  obtain ⟨x, hx⟩ := exists_heaviest hmem
  exact ⟨x.1, by rw [mostInfluential?, hx]; rfl⟩

theorem fits_mostInfluential [Scalar.Lawful α] (h : Founded s ids entries) (ht : Remains s t ids) {source : ConstraintId}
    (hs : mostInfluential? t entries v = some source) : Fits s ids source v := by
  obtain ⟨x, hx, rfl⟩ := Option.map_eq_some_iff.mp hs
  obtain ⟨hmem, hlt⟩ := List.mem_filter.mp (heaviest_mem hx)
  obtain ⟨e, he, hex⟩ := List.mem_filterMap.mp hmem
  obtain ⟨c, hc, rfl⟩ := Option.map_eq_some_iff.mp hex
  have hid := (h.fits e (List.mem_filter.mp he).1).1
  obtain ⟨d, hd, hterms⟩ := ht _ hid c hc
  exact ⟨hid, d, hd, hterms ▸ Constraint.mem_vars_of_influence (of_decide_eq_true hlt)⟩

/-- A variable is adopted by what is left: if it is wanted there, it has an entry then. -/
theorem Founded.adopt [Scalar.Lawful α] (h : Founded s ids entries) (ht : Remains s t ids) (v : Variable) :
    Founded s ids (adopt t entries v) ∧ entries ⊆ adopt t entries v ∧
      (Wanted t ids v → ∃ e ∈ adopt t entries v, e.pivot = v) := by
  unfold PivotEntry.adopt
  split
  · rename_i hany
    obtain ⟨e, he, hpivot⟩ := List.any_eq_true.mp hany
    exact ⟨h, List.Subset.refl _, fun _ => ⟨e, he, of_decide_eq_true hpivot⟩⟩
  · split
    · rename_i source hs
      obtain ⟨hfounded, hkept, hgiven⟩ := h.give (fits_mostInfluential h ht hs)
      exact ⟨hfounded, hkept, fun _ => hgiven⟩
    · rename_i hs
      refine ⟨h, List.Subset.refl _, ?_⟩
      intro hv
      obtain ⟨source, hsource⟩ := exists_mostInfluential h ht hv
      rw [hs] at hsource
      cases hsource

theorem Founded.fillOrphans [Scalar.Lawful α] (h : Founded s ids entries) (ht : Remains s t ids) (vs : List Variable) :
    Founded s ids (fillOrphans t entries vs) ∧ entries ⊆ fillOrphans t entries vs ∧
      ∀ v ∈ vs, Wanted t ids v → ∃ e ∈ fillOrphans t entries vs, e.pivot = v :=
  h.foldl vs id fun v _ _ hes => hes.adopt ht v

/-! ## Other systems -/

omit [Scalar α] in
theorem exists_constraint_of_terms {id : ConstraintId} {c : Constraint α}
    (h : (t.constraint? id).map (·.terms) = (s.constraint? id).map (·.terms)) (hc : t.constraint? id = some c) :
    ∃ d, s.constraint? id = some d ∧ c.terms = d.terms := by
  rw [hc, Option.map_some, eq_comm, Option.map_eq_some_iff] at h
  obtain ⟨d, hd, hterms⟩ := h
  exact ⟨d, hd, hterms.symm⟩

theorem Founded.congr (h : Founded s ids entries)
    (hterms : ∀ id ∈ ids, (t.constraint? id).map (·.terms) = (s.constraint? id).map (·.terms)) :
    Founded t ids entries where
  present id hid c hc hheavy := by
    obtain ⟨d, hd, he⟩ := exists_constraint_of_terms (hterms id hid) hc
    exact h.present id hid d hd ((Constraint.isHeavy_congr he).mp hheavy)
  single := h.single
  weighs e he hprimary := by
    obtain ⟨c, hc, hbears⟩ := h.weighs e he hprimary
    obtain ⟨d, hd, hcd⟩ := exists_constraint_of_terms (hterms _ (h.fits e he).1).symm hc
    exact ⟨d, hd, (Constraint.bears_congr hcd _).mp hbears⟩
  fits e he := by
    obtain ⟨hid, c, hc, hv⟩ := h.fits e he
    obtain ⟨d, hd, hcd⟩ := exists_constraint_of_terms (hterms _ hid).symm hc
    exact ⟨hid, d, hd, hcd ▸ hv⟩

theorem Serves.congr (h : Serves s ids entries)
    (hterms : ∀ id ∈ ids, (t.constraint? id).map (·.terms) = (s.constraint? id).map (·.terms)) :
    Serves t ids entries where
  toFounded := h.toFounded.congr hterms
  covers v := by
    rintro ⟨id, hid, c, hc, hweighs⟩
    obtain ⟨d, hd, he⟩ := exists_constraint_of_terms (hterms id hid) hc
    exact h.covers v ⟨id, hid, d, hd, (Constraint.weighs_congr he v).mp hweighs⟩

/-! ## Removing a constraint -/

theorem Founded.drop (h : Founded s ids entries) (removed : ConstraintId) :
    Founded s (removed.erase ids) (entries.filter (·.constraint ≠ removed)) := by
  refine ⟨?_, ?_, ?_, ?_⟩
  · intro id hid c hc hheavy
    obtain ⟨hold, hne⟩ : id ∈ ids ∧ id ≠ removed := by simpa [ConstraintId.erase] using hid
    obtain ⟨e, he, hid', hprimary⟩ := h.present id hold c hc hheavy
    exact ⟨e, List.mem_filter.mpr ⟨he, by simpa [hid'] using hne⟩, hid', hprimary⟩
  · exact h.single.sublist ((List.filter_sublist.filter _).map _)
  · exact fun e he => h.weighs e (List.mem_filter.mp he).1
  · intro e he
    obtain ⟨he, hne⟩ := List.mem_filter.mp he
    have hne : e.constraint ≠ removed := of_decide_eq_true hne
    obtain ⟨hid, hvar⟩ := h.fits e he
    exact ⟨by simp [ConstraintId.erase, hid, hne], hvar⟩

/-- **What a removal does to founded entries**: those of the removed constraint go, the others stay, and the pivots that
went have an entry again if they are wanted in what is left. -/
theorem Founded.withdraw [Scalar.Lawful α] (h : Founded s ids entries) (removed : ConstraintId)
    (ht : Remains s t (removed.erase ids)) :
    Founded s (removed.erase ids) (withdraw t entries removed) ∧
      ∀ e ∈ entries, Wanted t (removed.erase ids) e.pivot → ∃ e' ∈ withdraw t entries removed, e'.pivot = e.pivot := by
  obtain ⟨hall, hkept, hgiven⟩ :=
    (h.drop removed).fillOrphans ht ((entries.filter (·.constraint = removed)).map (·.pivot))
  refine ⟨hall, fun e he hv => ?_⟩
  by_cases hgone : e.constraint = removed
  · exact hgiven e.pivot (List.mem_map.mpr ⟨e, List.mem_filter.mpr ⟨he, decide_eq_true hgone⟩, rfl⟩) hv
  · exact ⟨e, hkept (List.mem_filter.mpr ⟨he, decide_eq_true hgone⟩), rfl⟩

/-- **Entries still serve after a removal**: those of the removed constraint go, and their pivots are adopted. -/
theorem Serves.withdraw [Scalar.Lawful α] (h : Serves s ids entries) (removed : ConstraintId)
    (ht : ∀ id, id ≠ removed → t.constraint? id = s.constraint? id) :
    Serves t (removed.erase ids) (withdraw t entries removed) := by
  have hmem : ∀ id, id ∈ removed.erase ids → id ∈ ids ∧ id ≠ removed := by
    intro id hid
    simpa [ConstraintId.erase] using hid
  have hremains : Remains s t (removed.erase ids) := fun id hid c hc => ⟨c, ht id (hmem id hid).2 ▸ hc, rfl⟩
  obtain ⟨hall, hgiven⟩ := h.toFounded.withdraw removed hremains
  refine ⟨hall.congr fun id hid => by rw [ht id (hmem id hid).2], ?_⟩
  intro v hv
  -- the entry that `v` had is still there, or it is one of those that went
  obtain ⟨id, hid, c, hc, hweighs⟩ := hv
  obtain ⟨hold, hne⟩ := hmem id hid
  obtain ⟨e, he, rfl⟩ := h.covers v ⟨id, hold, c, ht id hne ▸ hc, hweighs⟩
  exact hgiven e he ⟨id, hid, c, hc, hweighs⟩

end PivotEntry

end SoftLinear
