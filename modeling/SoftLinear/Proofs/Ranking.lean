import SoftLinear.Proofs.Noninterference
import SoftLinear.Proofs.ScalarLaws

/-!
# The order of priority

Constraints are ranked by falling penalty, and a list of identifiers keeps the order of those that weigh the same.
The ranking is an insertion sort (`System.sortByPriority_eq`) by a relation that compares penalties.  In a well-formed
system all penalties are defined, that of an identifier without constraint being zero, so the relation is total and
transitive (`System.penaltyOf_defined`) and the sort does what a sort does:

* penalties fall (`System.pairwise_sortByPriority`), and zero comes last;
* it is stable: what weighs the same is the same subsequence before and after (`System.filter_sortByPriority`).
-/

namespace SoftLinear

theorem exists_append_of_pairwise {β : Type} {P : β → Prop} {l : List β} (h : l.Pairwise fun a b => P b → P a) :
    ∃ front back, l = front ++ back ∧ (∀ a ∈ front, P a) ∧ ∀ b ∈ back, ¬ P b := by
  induction l with
  | nil => exact ⟨[], [], rfl, by simp, by simp⟩
  | cons a l ih =>
    obtain ⟨ha, hl⟩ := List.pairwise_cons.mp h
    by_cases hP : P a
    · obtain ⟨front, back, rfl, hfront, hback⟩ := ih hl
      exact ⟨a :: front, back, rfl, List.forall_mem_cons.mpr ⟨hP, hfront⟩, hback⟩
    · exact ⟨[], a :: l, rfl, by simp, List.forall_mem_cons.mpr ⟨hP, fun b hb hPb => hP (ha b hb hPb)⟩⟩

namespace System

variable {α : Type} [Scalar α] {s : System α} {a b : ConstraintId} {ids : List ConstraintId}

/-- Two identifiers have penalties that compare equal. -/
def ties (s : System α) (a b : ConstraintId) : Bool := decide (s.Outweighs a b) && decide (s.Outweighs b a)

/-- The first identifier has the larger penalty, or it has the same one and is the older one. -/
def Precedes (s : System α) (a b : ConstraintId) : Prop := s.Outweighs a b ∧ (s.Outweighs b a → a.index < b.index)

/-- No two orders of the same identifiers respect precedence. -/
theorem eq_of_precedes {l l' : List ConstraintId} (hperm : l.Perm l') (h : l.Pairwise s.Precedes)
    (h' : l'.Pairwise s.Precedes) : l = l' :=
  hperm.eq_of_pairwise (fun _ _ _ _ hab hba => absurd (hab.2 hba.1) (Nat.lt_asymm (hba.2 hab.1))) h h'

section Lawful

variable [Scalar.Lawful α] (hs : s.WellFormed)
include hs

omit [Scalar.Lawful α] in
theorem WellFormed.penalty_pos {c : Constraint α} (hc : s.constraint? a = some c) : 0 < s.penaltyOf a := by
  have hpenalty := (hs.fits hc).penalty
  simp only [isPenalty, Bool.and_eq_true, decide_eq_true_eq] at hpenalty
  unfold penaltyOf
  rw [hc]
  exact hpenalty.1.2

theorem penaltyOf_defined (a : ConstraintId) : Scalar.isNaN (s.penaltyOf a) = false := by
  cases hc : s.constraint? a with
  | none =>
    unfold penaltyOf
    rw [hc]
    exact Scalar.Ordered.zero_defined
  | some c => exact (Scalar.Ordered.defined_of_lt (hs.penalty_pos hc)).2

theorem outweighs_total : Std.Total s.Outweighs :=
  ⟨fun a b => Scalar.le_total_of_defined (penaltyOf_defined hs b) (penaltyOf_defined hs a)⟩

theorem outweighs_trans : IsTrans ConstraintId s.Outweighs :=
  ⟨fun a b c hab hbc => Scalar.le_trans_of_defined (penaltyOf_defined hs c) (penaltyOf_defined hs b)
    (penaltyOf_defined hs a) hbc hab⟩

theorem pairwise_sortByPriority (ids : List ConstraintId) : (s.sortByPriority ids).Pairwise s.Outweighs := by
  have htotal := outweighs_total hs
  have htrans := outweighs_trans hs
  rw [sortByPriority_eq]
  exact List.pairwise_insertionSort s.Outweighs ids

theorem filter_sortByPriority (ids : List ConstraintId) (a : ConstraintId) :
    (s.sortByPriority ids).filter (s.ties a) = ids.filter (s.ties a) := by
  have htrans := outweighs_trans hs
  have hties : ∀ b ∈ ids.filter (s.ties a), s.Outweighs a b ∧ s.Outweighs b a := by
    intro b hb
    simpa [ties] using (List.mem_filter.mp hb).2
  -- what ties is sorted already, so it stays a subsequence
  have hsorted : (ids.filter (s.ties a)).Pairwise s.Outweighs :=
    List.pairwise_of_forall_mem_list fun b hb c hc => htrans.trans b a c (hties b hb).2 (hties c hc).1
  have hsub : (ids.filter (s.ties a)).Sublist (s.sortByPriority ids) := by
    rw [sortByPriority_eq]
    exact List.sublist_insertionSort hsorted List.filter_sublist
  have hsub' := hsub.filter (s.ties a)
  simp only [List.filter_filter, Bool.and_self] at hsub'
  exact (hsub'.eq_of_length ((s.sortByPriority_perm ids).filter (s.ties a)).length_eq.symm).symm

/-- Identifiers that ascend before the sort are in order of precedence after it. -/
theorem precedes_sortByPriority (hids : ids.Pairwise (·.index < ·.index)) :
    (s.sortByPriority ids).Pairwise s.Precedes := by
  rw [List.pairwise_iff_forall_sublist]
  intro a b hab
  have hfalls : s.Outweighs a b := List.pairwise_iff_forall_sublist.mp (pairwise_sortByPriority hs ids) hab
  refine ⟨hfalls, fun hback => ?_⟩
  have hself : s.Outweighs a a := (outweighs_trans hs).trans a b a hfalls hback
  have hties : [a, b].filter (s.ties a) = [a, b] := by simp [ties, hfalls, hback, hself]
  have hsub : [a, b].Sublist (ids.filter (s.ties a)) := by
    rw [← filter_sortByPriority hs ids a, ← hties]
    exact hab.filter _
  exact List.pairwise_iff_forall_sublist.mp hids (hsub.trans List.filter_sublist)

/-- What is not there has no penalty, so it comes last. -/
theorem pairwise_isSome_sortByPriority (ids : List ConstraintId) :
    (s.sortByPriority ids).Pairwise fun a b => (s.constraint? b).isSome = true → (s.constraint? a).isSome = true := by
  refine (pairwise_sortByPriority hs ids).imp fun {a b} hab hb => ?_
  obtain ⟨c, hc⟩ := Option.isSome_iff_exists.mp hb
  rw [← Option.ne_none_iff_isSome]
  intro hnone
  have hzero : s.penaltyOf a = 0 := by
    unfold penaltyOf
    rw [hnone]
  refine Scalar.Lawful.not_le_of_lt (hs.penalty_pos hc) ?_
  rw [← hzero]
  exact hab

/-- What is hard has the largest penalty that there is, so it comes first. -/
theorem pairwise_isHard_sortByPriority (hone : isPenalty (hardPenalty : α) = true) (ids : List ConstraintId) :
    (s.sortByPriority ids).Pairwise fun a b =>
      (s.constraint? b).any (·.isHard) = true → (s.constraint? a).any (·.isHard) = true := by
  have hdefined : Scalar.isNaN (hardPenalty : α) = false := by
    simp only [isPenalty, Bool.and_eq_true] at hone
    exact Scalar.Lawful.defined_of_isFinite hone.1.1
  have hhard : ∀ {id c}, s.constraint? id = some c →
      ((s.constraint? id).any (·.isHard) = true ↔ hardPenalty ≤ s.penaltyOf id) := by
    intro id c hc
    unfold penaltyOf
    simp [hc, Constraint.isHard]
  refine ((pairwise_sortByPriority hs ids).and (pairwise_isSome_sortByPriority hs ids)).imp ?_
  rintro a b ⟨hab, hlive⟩ hb
  obtain ⟨d, hd⟩ : ∃ d, s.constraint? b = some d := by
    cases hd : s.constraint? b with
    | none => simp [hd] at hb
    | some d => exact ⟨d, rfl⟩
  obtain ⟨c, hc⟩ := Option.isSome_iff_exists.mp (hlive (by rw [hd]; rfl))
  rw [hhard hc]
  exact Scalar.le_trans_of_defined hdefined (penaltyOf_defined hs b) (penaltyOf_defined hs a) ((hhard hd).mp hb) hab

end Lawful

end System

namespace Model

variable {α γ : Type} [Scalar α] [Generator γ]

/-- **The order of priority** after any history, in every arithmetic in which a hard penalty is a penalty.  All
constraints by priority are the one list of the system's constraints in which penalties never rise and constraints
with equal penalties ascend; it begins with the hard ones, and the soft ones follow.  Every list of identifiers, also
one with repetitions and identifiers of removed constraints, is reordered so that penalties never rise; those with
equal penalties keep their order in the list, and what names no constraint comes after all that does. -/
theorem ranked_by_priority [Scalar.Lawful α] (hone : isPenalty (hardPenalty : α) = true) (i : Nat)
    (x : Option (AnySolver (Engine α γ))) (actions : List (Action α (AnySolver (Engine α γ)))) :
    let s := ((Model.new i x).perform actions).system
    (s.byPriority.Perm s.order ∧ s.byPriority.Pairwise s.Precedes ∧
      (∀ l : List ConstraintId, l.Perm s.order → l.Pairwise s.Precedes → l = s.byPriority) ∧
      ∃ hard soft, s.byPriority = hard ++ soft ∧ (∀ id ∈ hard, ∃ c, s.constraint? id = some c ∧ c.isHard = true) ∧
        ∀ id ∈ soft, ∃ c, s.constraint? id = some c ∧ c.isHard = false) ∧
    ∀ ids, (s.sortByPriority ids).Perm ids ∧
      (s.sortByPriority ids).Pairwise (fun a b => s.penaltyOf b ≤ s.penaltyOf a) ∧
      (∀ a, (s.sortByPriority ids).filter (s.ties a) = ids.filter (s.ties a)) ∧
      ∃ live stale, s.sortByPriority ids = live ++ stale ∧ (∀ id ∈ live, (s.constraint? id).isSome = true) ∧
        ∀ id ∈ stale, s.constraint? id = none := by
  intro s
  have hs : s.WellFormed := (perform_sound i x actions).1
  have hprecedes : s.byPriority.Pairwise s.Precedes := System.precedes_sortByPriority hs hs.sorted
  have hperm : s.byPriority.Perm s.order := s.sortByPriority_perm s.order
  refine ⟨⟨hperm, hprecedes, fun l hl h => ?_, ?_⟩, fun ids => ⟨s.sortByPriority_perm ids, ?_, ?_, ?_⟩⟩
  · exact System.eq_of_precedes (hl.trans hperm.symm) h hprecedes
  · obtain ⟨hard, soft, hsplit, hhard, hsoft⟩ :=
      exists_append_of_pairwise (System.pairwise_isHard_sortByPriority hs hone s.order)
    refine ⟨hard, soft, hsplit, fun id hid => ?_, fun id hid => ?_⟩
    · simpa [Option.any_eq_true] using hhard id hid
    · -- what the system lists is there, so it is soft and not stale
      have hmem : id ∈ s.sortByPriority s.order := by
        rw [hsplit]
        exact List.mem_append_right hard hid
      obtain ⟨c, hc⟩ := Option.isSome_iff_exists.mp ((hs.listed id).mp (hperm.subset hmem))
      exact ⟨c, hc, by simpa [hc] using hsoft id hid⟩
  · exact System.pairwise_sortByPriority hs ids
  · exact System.filter_sortByPriority hs ids
  · obtain ⟨live, stale, hsplit, hlive, hstale⟩ :=
      exists_append_of_pairwise (System.pairwise_isSome_sortByPriority hs ids)
    exact ⟨live, stale, hsplit, hlive, fun id hid => by simpa using hstale id hid⟩

/-- Over binary64: of five constraints, of which the third is removed, two are hard and two are equally soft; the list
to be sorted repeats a soft one, and names the removed one and one that never was. -/
theorem ranked_by_priority_of_two_hard :
    let add (penalty : Float) : Action Float (AnySolver (Engine Float KeyStream)) :=
      .edit (.add ⟨[⟨1, ⟨0, 0⟩⟩], .eq, .fixed 1, penalty, true, none, none⟩)
    let s := ((Model.new 0 none).perform [.edit (.addVariable none), add 0.5, add 1, add 0.9, add 0.5, add 1,
      .edit (.remove ⟨2⟩), .edit (.setPenalty ⟨0⟩ 0.25), .edit (.setPenalty ⟨3⟩ 0.25)]).system
    isPenalty (hardPenalty : Float) = true ∧
      s.byPriority = [⟨1⟩, ⟨4⟩, ⟨0⟩, ⟨3⟩] ∧
      s.sortByPriority [⟨2⟩, ⟨3⟩, ⟨7⟩, ⟨0⟩, ⟨4⟩, ⟨3⟩] = [⟨4⟩, ⟨3⟩, ⟨0⟩, ⟨3⟩, ⟨2⟩, ⟨7⟩] ∧
      ∀ l : List ConstraintId, l.Perm s.order → l.Pairwise s.Precedes → l = [⟨1⟩, ⟨4⟩, ⟨0⟩, ⟨3⟩] := by
  intro add s
  have hone : isPenalty (hardPenalty : Float) = true := by decide +kernel
  have hfirst : s.byPriority = [⟨1⟩, ⟨4⟩, ⟨0⟩, ⟨3⟩] := by decide +kernel
  obtain ⟨⟨-, -, hunique, -⟩, -⟩ := ranked_by_priority (γ := KeyStream) hone 0 none
    [.edit (.addVariable none), add 0.5, add 1, add 0.9, add 0.5, add 1, .edit (.remove ⟨2⟩),
      .edit (.setPenalty ⟨0⟩ 0.25), .edit (.setPenalty ⟨3⟩ 0.25)]
  exact ⟨hone, hfirst, by decide +kernel, fun l hl h => (hunique l hl h).trans hfirst⟩

end Model

end SoftLinear
