import SoftLinear.Proofs.Greedy
import SoftLinear.Proofs.ShareLaws
import SoftLinear.Proofs.Upkeep

/-!
# Entries in blocks

A deterministic or a uniform selection keeps the order of the constraints: its entries are consecutive blocks, a primary
entry with the duplicates of the same constraint behind it (`InBlocks`).

The form is kept by what is done to entries, whatever the systems are that they are compared with:

* a duplicate goes to the end of the block of its constraint, if there is one (`InBlocks.insertDuplicate`), and a variable
  is only ever adopted by a constraint with a primary entry (`InBlocks.adopt`);
* taking out the entries of a constraint takes out its block (`InBlocks.drop`).

A deterministic selection adopts by the shares that it noted, so there a share that does not count as zero has to come
with a primary entry (`Deterministic.exists_primary_of_source`).
-/

namespace SoftLinear

/-- A primary entry with the variables of the duplicates behind it. -/
structure Block where
  constraint : ConstraintId
  pivot : Variable
  followers : List Variable
  deriving DecidableEq, Repr

namespace Block

/-- The entries of a block. -/
def entries (b : Block) : List PivotEntry :=
  .primary b.constraint b.pivot :: b.followers.map fun v => ⟨b.constraint, v, true⟩

/-- The block with one more duplicate at its end. -/
def extend (b : Block) (v : Variable) : Block := { b with followers := b.followers ++ [v] }

theorem entries_extend (b : Block) (v : Variable) : (b.extend v).entries = b.entries ++ [⟨b.constraint, v, true⟩] := by
  simp [entries, extend]

theorem constraint_of_mem {b : Block} {e : PivotEntry} (h : e ∈ b.entries) : e.constraint = b.constraint := by
  rcases List.mem_cons.mp h with rfl | h
  · rfl
  · obtain ⟨v, -, rfl⟩ := List.mem_map.mp h
    rfl

end Block

namespace PivotEntry

/-- Entries are blocks, one for each constraint of a list. -/
def InBlocks (order : List ConstraintId) (entries : List PivotEntry) : Prop :=
  ∃ blocks : List Block, blocks.map (·.constraint) = order ∧ entries = blocks.flatMap Block.entries

/-! ## Putting a duplicate in -/

section Insert

variable {source : ConstraintId} {v : Variable} {entries rest : List PivotEntry}

/-- What comes before an entry of the source is passed. -/
theorem insertDuplicate_append (l : List PivotEntry) (h : ∃ e ∈ rest, e.constraint = source) :
    insertDuplicate source v (l ++ rest) = l ++ insertDuplicate source v rest := by
  induction l with
  | nil => rfl
  | cons e l ih =>
    obtain ⟨e', he', hid⟩ := h
    have hnot : ¬ (e.constraint = source ∧ (l ++ rest).all (·.constraint ≠ source) = true) := by
      rintro ⟨-, hall⟩
      have := List.all_eq_true.mp hall e' (List.mem_append_right _ he')
      simp [hid] at this
    rw [List.cons_append, insertDuplicate, if_neg hnot, ih, List.cons_append]

theorem insertDuplicate_between {l : List PivotEntry} (hne : l ≠ []) (hl : ∀ e ∈ l, e.constraint = source)
    (hrest : ∀ e ∈ rest, e.constraint ≠ source) :
    insertDuplicate source v (l ++ rest) = l ++ ⟨source, v, true⟩ :: rest := by
  obtain ⟨l, e, rfl⟩ := List.eq_nil_or_concat l |>.resolve_left hne
  have he : e.constraint = source := hl e (by simp)
  have hall : rest.all (·.constraint ≠ source) = true := List.all_eq_true.mpr fun e he => decide_eq_true (hrest e he)
  rw [List.concat_eq_append, List.append_assoc, List.append_assoc, insertDuplicate_append l ⟨e, by simp, he⟩]
  show l ++ insertDuplicate source v (e :: rest) = _
  rw [insertDuplicate, if_pos ⟨he, hall⟩]
  rfl

end Insert

namespace InBlocks

variable {order : List ConstraintId} {entries : List PivotEntry} {source : ConstraintId} {v : Variable}

/-- A duplicate goes to the end of the block of its source. -/
theorem insertDuplicate (h : InBlocks order entries) (hn : order.Nodup) (hsource : source ∈ order) :
    InBlocks order (insertDuplicate source v entries) := by
  obtain ⟨blocks, rfl, rfl⟩ := h
  obtain ⟨b, hb, rfl⟩ := List.mem_map.mp hsource
  obtain ⟨before, after, rfl⟩ := List.append_of_mem hb
  have hafter : ∀ e ∈ after.flatMap Block.entries, e.constraint ≠ b.constraint := by
    intro e he hid
    obtain ⟨a, ha, hea⟩ := List.mem_flatMap.mp he
    rw [List.map_append, List.map_cons] at hn
    have hnot := (List.nodup_cons.mp (List.nodup_append.mp hn).2.1).1
    exact hnot (List.mem_map.mpr ⟨a, ha, by rw [← hid, Block.constraint_of_mem hea]⟩)
  refine ⟨before ++ b.extend v :: after, by simp [Block.extend], ?_⟩
  rw [List.flatMap_append, List.flatMap_cons, List.flatMap_append, List.flatMap_cons, insertDuplicate_append,
    insertDuplicate_between (l := b.entries) (List.cons_ne_nil _ _) (fun e he => Block.constraint_of_mem he) hafter,
    Block.entries_extend, List.append_assoc, List.singleton_append]
  exact ⟨.primary b.constraint b.pivot, List.mem_append_left _ List.mem_cons_self, rfl⟩

theorem foldl_insertDuplicate (h : InBlocks order entries) (hn : order.Nodup) {l : List (ConstraintId × Variable)}
    (hl : ∀ x ∈ l, x.1 ∈ order) :
    InBlocks order (l.foldl (fun es x => PivotEntry.insertDuplicate x.1 x.2 es) entries) := by
  induction l generalizing entries with
  | nil => exact h
  | cons x l ih =>
    obtain ⟨hx, hl⟩ := List.forall_mem_cons.mp hl
    exact ih (h.insertDuplicate hn hx) hl

theorem drop (h : InBlocks order entries) (removed : ConstraintId) :
    InBlocks (removed.erase order) (entries.filter (·.constraint ≠ removed)) := by
  obtain ⟨blocks, rfl, rfl⟩ := h
  refine ⟨blocks.filter (·.constraint ≠ removed), ?_, ?_⟩
  · rw [ConstraintId.erase, List.filter_map]
    rfl
  · induction blocks with
    | nil => rfl
    | cons b blocks ih =>
      rw [List.flatMap_cons, List.filter_append, ih, List.filter_cons]
      by_cases hb : b.constraint = removed
      · have hgone : b.entries.filter (·.constraint ≠ removed) = [] := by
          rw [List.filter_eq_nil_iff]
          exact fun e he => by simp [Block.constraint_of_mem he, hb]
        rw [hgone, if_neg (by simpa using hb), List.nil_append]
      · have hkept : b.entries.filter (·.constraint ≠ removed) = b.entries := by
          rw [List.filter_eq_self]
          exact fun e he => by simp [Block.constraint_of_mem he, hb]
        rw [hkept, if_pos (by simpa using hb), List.flatMap_cons]

theorem of_primary (h : ∀ e ∈ entries, e.duplicate = false) : InBlocks (entries.map (·.constraint)) entries := by
  refine ⟨entries.map fun e => ⟨e.constraint, e.pivot, []⟩, by rw [List.map_map]; rfl, ?_⟩
  induction entries with
  | nil => rfl
  | cons e rest ih =>
    obtain ⟨he, hrest⟩ := List.forall_mem_cons.mp h
    obtain ⟨id, pivot, duplicate⟩ := e
    obtain rfl : duplicate = false := he
    rw [List.map_cons, List.flatMap_cons, ← ih hrest]
    rfl

theorem map_primary (h : InBlocks order entries) : (entries.filter (!·.duplicate)).map (·.constraint) = order := by
  obtain ⟨blocks, rfl, rfl⟩ := h
  induction blocks with
  | nil => rfl
  | cons b blocks ih =>
    have hfollowers : (b.followers.map fun v => (⟨b.constraint, v, true⟩ : PivotEntry)).filter (!·.duplicate) = [] := by
      rw [List.filter_eq_nil_iff]
      intro e he
      obtain ⟨v, -, rfl⟩ := List.mem_map.mp he
      simp
    rw [List.flatMap_cons, List.filter_append, List.map_append, ih, Block.entries,
      List.filter_cons_of_pos (by rfl), hfollowers]
    rfl

/-! ## Adopting variables -/

variable {α : Type} [Scalar α]

theorem mem_of_mostInfluential (h : InBlocks order entries) {t : System α}
    (hs : mostInfluential? t entries v = some source) : source ∈ order := by
  obtain ⟨x, hx, rfl⟩ := Option.map_eq_some_iff.mp hs
  obtain ⟨e, he, hex⟩ := List.mem_filterMap.mp (List.mem_filter.mp (heaviest_mem hx)).1
  obtain ⟨c, -, rfl⟩ := Option.map_eq_some_iff.mp hex
  rw [← h.map_primary]
  exact List.mem_map.mpr ⟨e, he, rfl⟩

theorem adopt (h : InBlocks order entries) (hn : order.Nodup) (t : System α) (v : Variable) :
    InBlocks order (adopt t entries v) := by
  unfold PivotEntry.adopt
  split
  · exact h
  · split
    · rename_i source hs
      exact h.insertDuplicate hn (h.mem_of_mostInfluential hs)
    · exact h

theorem fillOrphans (h : InBlocks order entries) (hn : order.Nodup) (t : System α) (vs : List Variable) :
    InBlocks order (fillOrphans t entries vs) := by
  unfold PivotEntry.fillOrphans
  induction vs generalizing entries with
  | nil => exact h
  | cons v vs ih => exact ih (h.adopt hn t v)

theorem withdraw (h : InBlocks order entries) (hn : order.Nodup) (t : System α) (removed : ConstraintId) :
    InBlocks (removed.erase order) (withdraw t entries removed) :=
  (h.drop removed).fillOrphans (hn.filter _) t _

/-- After any removals the blocks of the other constraints are left, in their order. -/
theorem foldl_withdraw (h : InBlocks order entries) (hn : order.Nodup) (removals : List (System α × ConstraintId)) :
    InBlocks (order.filter fun id => removals.all (·.2 ≠ id))
      (removals.foldl (fun es r => PivotEntry.withdraw r.1 es r.2) entries) := by
  induction removals generalizing order entries with
  | nil =>
    have hall : (order.filter fun id => ([] : List (System α × ConstraintId)).all (·.2 ≠ id)) = order :=
      List.filter_eq_self.mpr fun _ _ => rfl
    rw [hall]
    exact h
  | cons r removals ih =>
    have hrest := ih (h.withdraw hn r.1 r.2) (hn.filter _)
    have hleft : (r.2.erase order).filter (fun id => removals.all (·.2 ≠ id)) =
        order.filter fun id => (r :: removals).all (·.2 ≠ id) := by
      rw [ConstraintId.erase, List.filter_filter]
      refine List.filter_congr fun id _ => ?_
      rw [List.all_cons, Bool.and_comm]
      simp [eq_comm]
    rw [← hleft]
    exact hrest

end InBlocks

/-! ## The pivots of duplicates -/

/-- The variables that duplicates were made for. -/
def adopted (entries : List PivotEntry) : List Variable := (entries.filter (·.duplicate)).map (·.pivot)

theorem adopted_perm {l m : List PivotEntry} (h : l.Perm m) : (adopted l).Perm (adopted m) := (h.filter _).map _

theorem adopted_append (l m : List PivotEntry) : adopted (l ++ m) = adopted l ++ adopted m := by
  rw [adopted, List.filter_append, List.map_append]
  rfl

theorem adopted_map (l : List (ConstraintId × Variable)) : adopted (l.map fun x => ⟨x.1, x.2, true⟩) = l.map (·.2) := by
  simp [adopted, List.filter_map, Function.comp_def]

theorem adopted_of_primary {entries : List PivotEntry} (h : ∀ e ∈ entries, e.duplicate = false) :
    adopted entries = [] := by
  unfold adopted
  rw [List.filter_eq_nil_iff.mpr fun e he => by simp [h e he], List.map_nil]

section Adopted

variable {α : Type} [Scalar α] {entries : List PivotEntry}

theorem nodup_adopted_adopt (h : (adopted entries).Nodup) (t : System α) (v : Variable) :
    (adopted (adopt t entries v)).Nodup := by
  unfold adopt
  split
  · exact h
  · rename_i hnone
    split
    · refine (adopted_perm (insertDuplicate_perm _ v entries)).nodup_iff.mpr (List.nodup_cons.mpr ⟨?_, h⟩)
      -- a variable is adopted when it has no entry at all
      intro hv
      obtain ⟨e, he, hpivot⟩ := List.mem_map.mp hv
      exact hnone (List.any_eq_true.mpr ⟨e, (List.mem_filter.mp he).1, decide_eq_true hpivot⟩)
    · exact h

theorem nodup_adopted_fillOrphans (h : (adopted entries).Nodup) (t : System α) (vs : List Variable) :
    (adopted (fillOrphans t entries vs)).Nodup := by
  unfold fillOrphans
  induction vs generalizing entries with
  | nil => exact h
  | cons v vs ih => exact ih (nodup_adopted_adopt h t v)

theorem nodup_adopted_withdraw (h : (adopted entries).Nodup) (t : System α) (removed : ConstraintId) :
    (adopted (withdraw t entries removed)).Nodup :=
  nodup_adopted_fillOrphans (h.sublist ((List.filter_sublist.filter _).map _)) t _

theorem nodup_adopted_foldl_withdraw (h : (adopted entries).Nodup) (removals : List (System α × ConstraintId)) :
    (adopted (removals.foldl (fun es r => withdraw r.1 es r.2) entries)).Nodup := by
  induction removals generalizing entries with
  | nil => exact h
  | cons r removals ih => exact ih (nodup_adopted_withdraw h r.1 r.2)

end Adopted

end PivotEntry

/-! ## Selections -/

section Selections

theorem map_filterMap_sublist {β δ κ : Type} {f : β → Option δ} (key : δ → κ) (label : β → κ)
    (h : ∀ x y, f x = some y → key y = label x) (l : List β) : ((l.filterMap f).map key).Sublist (l.map label) := by
  induction l with
  | nil => exact .slnil
  | cons x l ih =>
    rw [List.filterMap_cons]
    split
    · exact ih.cons _
    · rename_i y hy
      rw [List.map_cons, List.map_cons, h x y hy]
      exact ih.cons_cons _

variable {α γ : Type} [Scalar α] {s : System α} {ids : List ConstraintId} {list : List (ConstraintId × Constraint α)}
  {vs : List Variable}

namespace Uniform

variable [Generator γ]

theorem drawAll_primary (retries : Nat) (list : List (ConstraintId × Constraint α)) (g : γ) :
    (∀ e ∈ (drawAll retries list g).1, e.duplicate = false) ∧
      ((drawAll retries list g).1.map (·.constraint)).Sublist (list.map (·.1)) := by
  induction list generalizing g with
  | nil => exact ⟨by simp [drawAll], .slnil⟩
  | cons x list ih =>
    obtain ⟨hprimary, hsub⟩ := ih (pivotAt? retries x.2 g).2
    unfold drawAll
    dsimp only
    split
    · rename_i e he
      obtain ⟨k, -, hentry⟩ := Option.bind_eq_some_iff.mp he
      obtain ⟨t, -, rfl⟩ := entryAt_spec x.2 x.1 hentry
      exact ⟨List.forall_mem_cons.mpr ⟨rfl, hprimary⟩, hsub.cons_cons _⟩
    · exact ⟨hprimary, hsub.cons _⟩

end Uniform

namespace Deterministic

theorem primaries_sublist (list : List (ConstraintId × Constraint α)) :
    ((primaries list).map (·.constraint)).Sublist (list.map (·.1)) := by
  rw [← map_zipIdx_fst Prod.fst list]
  refine map_filterMap_sublist _ _ (fun x e he => ?_) _
  obtain ⟨p, -, rfl⟩ := Option.map_eq_some_iff.mp he
  rfl

/-- A constraint with defined weights of which one is not almost zero gets a pivot. -/
theorem exists_pivot_of_heavy [Scalar.Lawful α] {x : Candidate α} (hx : x ∈ candidates list)
    (hdefined : x.constraint.Defined) (hheavy : x.constraint.IsHeavy) :
    ∃ v, (x.place, v) ∈ (known list).pivots := by
  obtain ⟨done, hdone, h⟩ := known_induction list (motive := fun done st => ∀ y ∈ done, y.constraint.Defined →
      y.constraint.IsHeavy → ∃ v, (y.place, v) ∈ st.pivots) (by simp) (by
      intro done st _ x _ _ h _
      refine List.forall_mem_cons.mpr ⟨fun hdefined hheavy => ?_, fun y hy hdefined hheavy => ?_⟩
      · obtain ⟨t, ht⟩ := exists_pivotAt hdefined hheavy st.assigned
        exact ⟨t.var, mem_step_pivots.mpr (.inl ⟨t, ht, rfl⟩)⟩
      · obtain ⟨v, hv⟩ := h y hy hdefined hheavy
        exact ⟨v, mem_step_pivots.mpr (.inr hv)⟩)
  exact h x (hdone.mem_iff.mpr hx) hdefined hheavy

/-- **Whoever adopts has a primary entry**, if every constraint has a weight that is not almost zero, or only weights
that are zero. -/
theorem exists_primary_of_source [Scalar.Divisible α]
    (hweights : ∀ x ∈ list, (∀ t ∈ x.2.terms, (t.coefficient == 0) = true) ∨ x.2.IsHeavy) {v : Variable}
    {source : ConstraintId} (h : (known list).shares.source? v = some source) :
    ∃ e ∈ primaries list, e.constraint = source := by
  obtain ⟨y, hy, -, rfl⟩ := source_spec h
  obtain ⟨x, hx, hid, i, t, ht, -, hshare⟩ := mem_known_shares hy
  have hheavy : x.constraint.IsHeavy := by
    refine (hweights _ (mem_of_candidate hx)).resolve_left fun hzero => ?_
    exact hshare (Constraint.dominance_le_of_zero ht (hzero t (List.mem_of_getElem? ht)))
  obtain ⟨v, hv⟩ := exists_pivot_of_heavy hx (Constraint.defined_of_dominance hshare) hheavy
  exact ⟨.primary x.id v, mem_primaries.mpr ⟨x, hx, hv, rfl⟩, hid⟩

theorem select_inBlocks [Scalar.Divisible α] (limit : Option Nat) (hn : ids.Nodup)
    (hweights : ∀ x ∈ considered s ids limit, (∀ t ∈ x.2.terms, (t.coefficient == 0) = true) ∨ x.2.IsHeavy) :
    PivotEntry.InBlocks ((primaries (considered s ids limit)).map (·.constraint)) (select s ids vs limit).entries := by
  refine (PivotEntry.InBlocks.of_primary primaries_primary).foldl_insertDuplicate
    ((nodup_considered hn limit).sublist (primaries_sublist _)) fun x hx => ?_
  obtain ⟨e, he, hid⟩ := exists_primary_of_source hweights (source_of_adoption hx)
  exact List.mem_map.mpr ⟨e, he, hid⟩

theorem nodup_adopted_select (limit : Option Nat) (hvs : vs.Nodup) :
    (PivotEntry.adopted (select s ids vs limit).entries).Nodup := by
  rw [select_entries]
  have hadoptions : ((adoptions (considered s ids limit) vs).map (·.2)).Nodup := by
    have hsub : ((adoptions (considered s ids limit) vs).map (·.2)).Sublist (List.map id _) :=
      map_filterMap_sublist _ _ (fun v x hx => by
        obtain ⟨source, -, rfl⟩ := Option.map_eq_some_iff.mp hx
        rfl) _
    rw [List.map_id] at hsub
    exact (hvs.filter _).sublist hsub
  have hperm := PivotEntry.adopted_perm (PivotEntry.foldl_insertDuplicate_perm (adoptions (considered s ids limit) vs)
    (primaries (considered s ids limit)))
  rw [hperm.nodup_iff, PivotEntry.adopted_append, PivotEntry.adopted_map, PivotEntry.adopted_of_primary primaries_primary,
    List.append_nil]
  exact hadoptions

end Deterministic

namespace Selector

/-- Whether a selector leaves the entries in the order of the constraints. -/
def keepsOrder : Selector γ → Bool
  | twoPhase .. => false
  | _ => true

variable [Generator γ]

theorem exists_inBlocks [Scalar.Divisible α] (selector : Selector γ) (hkeeps : selector.keepsOrder = true)
    (vs : List Variable) (limit : Option Nat) (hn : ids.Nodup)
    (hweights : ∀ x ∈ considered s ids limit, (∀ t ∈ x.2.terms, (t.coefficient == 0) = true) ∨ x.2.IsHeavy) :
    let entries := (selector.select s ids vs limit).1.entries
    (∃ order : List ConstraintId, order.Sublist ids ∧ PivotEntry.InBlocks order entries) ∧
      (vs.Nodup → (PivotEntry.adopted entries).Nodup) := by
  have hnames := considered_sublist s ids limit
  cases selector with
  | twoPhase => cases hkeeps
  | deterministic =>
    refine ⟨⟨_, ?_, Deterministic.select_inBlocks limit hn hweights⟩, Deterministic.nodup_adopted_select limit⟩
    exact (Deterministic.primaries_sublist _).trans hnames
  | uniform g retries =>
    obtain ⟨hprimary, hsub⟩ := Uniform.drawAll_primary retries (considered s ids limit) g
    have horder := hsub.trans hnames
    refine ⟨⟨_, horder, (PivotEntry.InBlocks.of_primary hprimary).fillOrphans (hn.sublist horder) s vs⟩, fun _ => ?_⟩
    refine PivotEntry.nodup_adopted_fillOrphans ?_ s vs
    rw [PivotEntry.adopted_of_primary hprimary]
    exact List.nodup_nil

/-- **Duplicates keep the order of the constraints.**  Let a deterministic or a uniform selector choose pivots for a list
of constraints without repetitions, where each considered constraint has only weights that are zero or a finite one that
is not almost zero.  After any removals, whatever the systems are by then, the entries are consecutive blocks in the order
of the list, one for each constraint that was given a primary entry and not removed; a block is that primary entry with
duplicates of the same constraint behind it.  If the variables asked for are distinct, no two duplicates have the same
pivot. -/
theorem entries_in_blocks [Scalar.Divisible α] (selector : Selector γ) (hkeeps : selector.keepsOrder = true)
    (s : System α) (ids : List ConstraintId) (vs : List Variable) (limit : Option Nat) (hn : ids.Nodup)
    (hweights : ∀ x ∈ considered s ids limit, (∀ t ∈ x.2.terms, (t.coefficient == 0) = true) ∨
      ∃ t ∈ x.2.terms, Scalar.isFinite t.coefficient = true ∧ nearZero < Scalar.abs t.coefficient)
    (removals : List (System α × ConstraintId)) :
    let selected := (selector.select s ids vs limit).1.entries
    let entries := removals.foldl (fun es r => PivotEntry.withdraw r.1 es r.2) selected
    (∃ blocks : List Block, blocks.map (·.constraint) = ids.filter (fun id => removals.all (·.2 ≠ id) &&
        selected.any fun e => e.constraint = id && !e.duplicate) ∧
      entries = blocks.flatMap fun b =>
        ⟨b.constraint, b.pivot, false⟩ :: b.followers.map fun v => ⟨b.constraint, v, true⟩) ∧
    (vs.Nodup → ((entries.filter (·.duplicate)).map (·.pivot)).Nodup) := by
  intro selected entries
  obtain ⟨⟨order, horder, hblocks⟩, hdistinct⟩ := selector.exists_inBlocks hkeeps vs limit hn
    fun x hx => (hweights x hx).imp_right fun ⟨t, ht, _, hweight⟩ => ⟨t, ht, hweight⟩
  have hchosen : order = ids.filter fun id => selected.any fun e => e.constraint = id && !e.duplicate := by
    rw [← filter_mem_of_sublist horder hn]
    refine List.filter_congr fun id _ => ?_
    rw [Bool.eq_iff_iff, decide_eq_true_iff, List.any_eq_true, ← hblocks.map_primary, List.mem_map]
    refine exists_congr fun e => ?_
    rw [List.mem_filter, Bool.and_eq_true, decide_eq_true_iff]
    tauto
  refine ⟨?_, fun hvs => PivotEntry.nodup_adopted_foldl_withdraw (hdistinct hvs) removals⟩
  rw [← List.filter_filter, ← hchosen]
  exact hblocks.foldl_withdraw (hn.sublist horder) removals

/-- A deterministic selection over binary64 for three constraints, of which the last one has only a weight that is zero; then
the first one is removed, and the second one adopts its pivot. -/
theorem entries_in_blocks_of_removal :
    let actions : List (Action Float (AnySolver (Engine Float KeyStream))) :=
      [.edit (.addVariable none), .edit (.addVariable none),
        .edit (.add ⟨[⟨2, ⟨0, 0⟩⟩, ⟨1, ⟨0, 1⟩⟩], .eq, .fixed 4, 1, true, none, none⟩),
        .edit (.add ⟨[⟨1, ⟨0, 0⟩⟩, ⟨1, ⟨0, 1⟩⟩], .eq, .fixed 3, 1, true, none, none⟩),
        .edit (.add ⟨[⟨0, ⟨0, 0⟩⟩], .eq, .fixed 0, 1, true, none, none⟩)]
    let start := (Model.new 0 none).perform actions
    let selector : Selector KeyStream := .deterministic
    let selected := (selector.select start.system [⟨0⟩, ⟨1⟩, ⟨2⟩] [⟨0, 0⟩, ⟨0, 1⟩] none).1.entries
    let removals := [((start.act (.edit (.remove ⟨0⟩))).system, ⟨0⟩)]
    let entries := removals.foldl (fun es r => PivotEntry.withdraw r.1 es r.2) selected
    entries = [⟨⟨1⟩, ⟨0, 1⟩, false⟩, ⟨⟨1⟩, ⟨0, 0⟩, true⟩] ∧
      (∃ blocks : List Block, blocks.map (·.constraint) = [⟨1⟩] ∧ entries = blocks.flatMap fun b =>
        ⟨b.constraint, b.pivot, false⟩ :: b.followers.map fun v => ⟨b.constraint, v, true⟩) ∧
      ((entries.filter (·.duplicate)).map (·.pivot)).Nodup := by
  intro actions start selector selected removals entries
  have hweights : ∀ x ∈ considered start.system [⟨0⟩, ⟨1⟩, ⟨2⟩] none,
      (∀ t ∈ x.2.terms, (t.coefficient == 0) = true) ∨
        ∃ t ∈ x.2.terms, Scalar.isFinite t.coefficient = true ∧ nearZero < Scalar.abs t.coefficient := by decide +kernel
  have hleft : [⟨0⟩, ⟨1⟩, ⟨2⟩].filter (fun id => removals.all (·.2 ≠ id) &&
      selected.any fun e => e.constraint = id && !e.duplicate) = [⟨1⟩] := by decide +kernel
  obtain ⟨⟨blocks, hnames, hblocks⟩, hdistinct⟩ := entries_in_blocks selector rfl start.system [⟨0⟩, ⟨1⟩, ⟨2⟩]
    [⟨0, 0⟩, ⟨0, 1⟩] none (by decide) hweights removals
  refine ⟨by decide +kernel, ⟨blocks, ?_, ?_⟩, ?_⟩
  · rw [hnames]
    with_reducible exact hleft
  · with_reducible exact hblocks
  · with_reducible exact hdistinct (by decide)

end Selector

end Selections

end SoftLinear
