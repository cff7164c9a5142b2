import Mathlib.Data.List.Perm.Basic
import Mathlib.Logic.Equiv.Basic
import SoftLinear.Proofs.CheckedSelection

/-!
# Spaced orders

The two-phase selector takes the entry whose pivot has the most entries left, among those whose pivot was not taken lately.
This is the best that can be done: if the entries have any order in which equal pivots keep their distance (`Apart`), then
the order that comes out is one (`TwoPhase.spacedShuffle_spec`).

The step is an exchange.  Suppose that what was taken so far can be completed, beginning with a pivot `b`, and that `a` may
be taken as well and has at least as many entries left.  Then `a` and `b` are interchanged in the completion, up to a place
where both have occurred equally often and behind which neither occurs for a while (`Apart.exists_balanced`).  Neither has
occurred lately, and neither is about to, so the places where the interchange begins and ends do no harm
(`Apart.relabel`).
-/

namespace SoftLinear

section Labels

variable {β : Type} {distance : Nat} {front pre post t : List β} {a b : β}

/-- Equal labels stand at least a distance apart. -/
def Apart (distance : Nat) (labels : List β) : Prop :=
  ∀ j < labels.length, ∀ i < j, labels[i]? = labels[j]? → i + distance ≤ j

instance [DecidableEq β] (distance : Nat) (labels : List β) : Decidable (Apart distance labels) :=
  inferInstanceAs (Decidable (∀ j < labels.length, ∀ i < j, labels[i]? = labels[j]? → i + distance ≤ j))

theorem Apart.le {x : β} {i j : Nat} (h : Apart distance t) (hlt : i < j) (hi : t[i]? = some x) (hj : t[j]? = some x) :
    i + distance ≤ j :=
  h j (List.getElem?_eq_some_iff.mp hj).1 i hlt (hi.trans hj.symm)

theorem Apart.right (h : Apart distance (front ++ t)) : Apart distance t := by
  intro j hj i hlt heq
  have := h (front.length + j) (by simpa using hj) (front.length + i) (by omega) (by
    rwa [List.getElem?_append_right (Nat.le_add_right _ _), List.getElem?_append_right (Nat.le_add_right _ _),
      Nat.add_sub_cancel_left, Nat.add_sub_cancel_left])
  omega

theorem Apart.tail (h : Apart distance (a :: t)) : Apart distance t :=
  Apart.right (show Apart distance ([a] ++ t) from h)

/-! ## Relabelling a segment -/

theorem getElem?_relabel (front pre post : List β) (σ : Equiv.Perm β) (k : Nat) :
    (front ++ (pre.map σ ++ post))[k]? =
      if front.length ≤ k ∧ k < front.length + pre.length then (front ++ (pre ++ post))[k]?.map σ
      else (front ++ (pre ++ post))[k]? := by
  by_cases hfront : k < front.length
  · rw [if_neg (by omega), List.getElem?_append_left hfront, List.getElem?_append_left hfront]
  · rw [List.getElem?_append_right (not_lt.mp hfront), List.getElem?_append_right (not_lt.mp hfront)]
    by_cases hpre : k - front.length < pre.length
    · rw [if_pos (by omega), List.getElem?_append_left (by simpa using hpre), List.getElem?_append_left hpre,
        List.getElem?_map]
    · rw [if_neg (by omega), List.getElem?_append_right (by simpa using hpre),
        List.getElem?_append_right (not_lt.mp hpre), List.length_map]

/-- The labels of a segment may be permuted if those that change have not occurred lately before it and do not occur for a
while behind it. -/
theorem Apart.relabel (h : Apart distance (front ++ (pre ++ post))) (σ : Equiv.Perm β)
    (hfront : ∀ i x, front[i]? = some x → σ x ≠ x → i + distance ≤ front.length)
    (hpost : ∀ j x, post[j]? = some x → σ x ≠ x → distance ≤ j + 1) :
    Apart distance (front ++ (pre.map σ ++ post)) := by
  intro j hj i hlt heq
  have hj' : j < (front ++ (pre ++ post)).length := by simpa using hj
  obtain ⟨x, hx⟩ : ∃ x, (front ++ (pre ++ post))[i]? = some x := ⟨_, List.getElem?_eq_getElem (hlt.trans hj')⟩
  obtain ⟨y, hy⟩ : ∃ y, (front ++ (pre ++ post))[j]? = some y := ⟨_, List.getElem?_eq_getElem hj'⟩
  rw [getElem?_relabel, getElem?_relabel, hx, hy] at heq
  split at heq
  · rename_i hi
    split at heq
    · -- both in the segment
      exact h.le hlt hx (hy.trans (Option.map_injective σ.injective heq).symm)
    · -- the later one behind the segment
      rename_i hbehind
      obtain rfl := Option.some.inj heq
      by_cases hfix : σ (σ x) = σ x
      · exact h.le hlt hx (σ.injective hfix ▸ hy)
      · rw [List.getElem?_append_right (by omega), List.getElem?_append_right (by omega)] at hy
        have := hpost _ _ hy hfix
        omega
  · rename_i hi
    split at heq
    · -- the earlier one before the segment
      rename_i hseg
      obtain rfl := Option.some.inj heq
      by_cases hfix : σ (σ y) = σ y
      · exact h.le hlt (σ.injective hfix ▸ hx) hy
      · rw [List.getElem?_append_left (by omega)] at hx
        have := hfront _ _ hx hfix
        omega
    · exact h.le hlt hx (heq ▸ hy)

/-! ## The exchange -/

variable [DecidableEq β]

theorem map_swap_perm (h : pre.count a = pre.count b) : (pre.map (Equiv.swap a b)).Perm pre := by
  rw [List.perm_iff_count]
  intro x
  have hcount : (pre.map (Equiv.swap a b)).count x = pre.count (Equiv.swap a b x) := by
    have := List.count_map_of_injective pre (Equiv.swap a b) (Equiv.swap a b).injective (Equiv.swap a b x)
    rwa [Equiv.swap_apply_self] at this
  rw [hcount]
  by_cases hxa : x = a
  · rw [hxa, Equiv.swap_apply_left, h]
  · by_cases hxb : x = b
    · rw [hxb, Equiv.swap_apply_right, h]
    · rw [Equiv.swap_apply_of_ne_of_ne hxa hxb]

/-- Behind an `a`, neither it nor a `b` occurs for a while, or a `b` comes next of the two. -/
theorem Apart.quiet_or_next (h : Apart distance (a :: t)) (b : β) :
    (∀ j x, t[j]? = some x → x = a ∨ x = b → distance ≤ j + 1) ∨ ∃ s u, t = s ++ b :: u ∧ a ∉ s ∧ b ∉ s := by
  by_cases hb : b ∈ t.take (distance - 1)
  · right
    obtain ⟨s, u, rfl, hbs⟩ := List.eq_append_cons_of_mem (List.mem_of_mem_take hb)
    have hs : s.length < distance - 1 := by
      by_contra hlong
      rw [List.take_append_of_le_length (not_lt.mp hlong)] at hb
      exact hbs (List.mem_of_mem_take hb)
    refine ⟨s, u, rfl, fun hmem => ?_, hbs⟩
    obtain ⟨i, hi⟩ := List.mem_iff_getElem?.mp hmem
    have hilt := (List.getElem?_eq_some_iff.mp hi).1
    have hnext : (a :: (s ++ b :: u))[i + 1]? = some a := by
      rw [List.getElem?_cons_succ, List.getElem?_append_left hilt, hi]
    have := h.le (Nat.succ_pos i) List.getElem?_cons_zero hnext
    omega
  · left
    rintro j x hj (rfl | rfl)
    · have := h.le (Nat.succ_pos j) List.getElem?_cons_zero (by rw [List.getElem?_cons_succ, hj])
      omega
    · by_contra hnear
      refine hb (List.mem_iff_getElem?.mpr ⟨j, ?_⟩)
      rw [List.getElem?_take_of_lt (by omega), hj]

/-- A label that is to occur more often than another one, by any positive number, has done so at some place behind which
neither occurs for a while. -/
theorem Apart.exists_balanced (hne : a ≠ b) (h : Apart distance t) {k : Nat} (hk : 0 < k)
    (hcount : k + t.count b ≤ t.count a) : ∃ pre post, t = pre ++ post ∧ pre.count a = pre.count b + k ∧
      ∀ j x, post[j]? = some x → x = a ∨ x = b → distance ≤ j + 1 := by
  induction hn : t.length using Nat.strong_induction_on generalizing t k with
  | h n ih =>
    cases t with
    | nil =>
      rw [List.count_nil, List.count_nil] at hcount
      omega
    | cons x t =>
      have htail : Apart distance t := h.tail
      have hshort : t.length < n := by
        rw [← hn, List.length_cons]
        omega
      by_cases hxa : x = a
      · subst hxa
        rw [List.count_cons_self, List.count_cons_of_ne hne] at hcount
        -- the place is right behind this `a`, unless a `b` follows too early
        by_cases hlast : k = 1
        · subst hlast
          rcases h.quiet_or_next b with hquiet | ⟨s, t, rfl, has, hbs⟩
          · refine ⟨[x], t, rfl, by simp [hne], hquiet⟩
          · -- with the `b`, another `a` is to come
            rw [List.count_append, List.count_append, List.count_cons_self, List.count_cons_of_ne hne.symm,
              List.count_eq_zero_of_not_mem hbs, List.count_eq_zero_of_not_mem has] at hcount
            obtain ⟨pre, post, rfl, hbalanced, hpost⟩ := ih t.length (by
              simp only [List.length_append, List.length_cons] at hshort
              omega) htail.right.tail Nat.one_pos (by omega) rfl
            refine ⟨x :: (s ++ b :: pre), post, by simp, ?_, hpost⟩
            rw [List.count_cons_self, List.count_cons_of_ne hne, List.count_append, List.count_append,
              List.count_cons_self, List.count_cons_of_ne hne.symm, List.count_eq_zero_of_not_mem hbs,
              List.count_eq_zero_of_not_mem has]
            omega
        · obtain ⟨pre, post, rfl, hbalanced, hpost⟩ := ih t.length hshort htail (k := k - 1) (by omega) (by omega) rfl
          refine ⟨x :: pre, post, rfl, ?_, hpost⟩
          rw [List.count_cons_self, List.count_cons_of_ne hne]
          omega
      · by_cases hxb : x = b
        · subst hxb
          rw [List.count_cons_self, List.count_cons_of_ne hxa] at hcount
          obtain ⟨pre, post, rfl, hbalanced, hpost⟩ := ih t.length hshort htail (k := k + 1) (by omega) (by omega) rfl
          refine ⟨x :: pre, post, rfl, ?_, hpost⟩
          rw [List.count_cons_self, List.count_cons_of_ne hxa]
          omega
        · rw [List.count_cons_of_ne hxa, List.count_cons_of_ne hxb] at hcount
          obtain ⟨pre, post, rfl, hbalanced, hpost⟩ := ih t.length hshort htail hk hcount rfl
          refine ⟨x :: pre, post, rfl, ?_, hpost⟩
          rw [List.count_cons_of_ne hxa, List.count_cons_of_ne hxb, hbalanced]

/-- **The exchange.**  If a beginning can be completed at all, it can be completed with a label next that has not occurred
lately and that occurs in the completion at least as often as the label that comes first there. -/
theorem Apart.exchange (h : Apart distance (front ++ b :: t)) (hcount : (b :: t).count b ≤ (b :: t).count a)
    (hfront : ∀ i, front[i]? = some a → i + distance ≤ front.length) :
    ∃ t', (a :: t').Perm (b :: t) ∧ Apart distance (front ++ a :: t') := by
  by_cases hne : a = b
  · exact ⟨t, hne ▸ .refl _, hne ▸ h⟩
  rw [List.count_cons_self, List.count_cons_of_ne (Ne.symm hne)] at hcount
  obtain ⟨pre, post, rfl, hbalanced, hpost⟩ :=
    Apart.exists_balanced hne h.right.tail Nat.one_pos (by omega)
  have hequal : (b :: pre).count a = (b :: pre).count b := by
    rw [List.count_cons_self, List.count_cons_of_ne (Ne.symm hne), hbalanced]
  have hmap : (b :: pre).map (Equiv.swap a b) = a :: pre.map (Equiv.swap a b) := by
    rw [List.map_cons, Equiv.swap_apply_right]
  -- the two labels change places up to where they balance
  refine ⟨pre.map (Equiv.swap a b) ++ post, ?_, ?_⟩
  · have hperm := (map_swap_perm hequal).append_right post
    rwa [hmap] at hperm
  · rw [← List.cons_append, ← hmap]
    refine Apart.relabel h (Equiv.swap a b) ?_ ?_
    · intro i x hi hmoved
      rcases (Equiv.swap_apply_ne_self_iff.mp hmoved).2 with rfl | rfl
      · exact hfront i hi
      · have hilt := (List.getElem?_eq_some_iff.mp hi).1
        exact h.le hilt (by rw [List.getElem?_append_left hilt, hi]) (by simp)
    · intro j x hj hmoved
      exact hpost j x hj (Equiv.swap_apply_ne_self_iff.mp hmoved).2

end Labels

/-! ## The greedy order -/

namespace TwoPhase

variable {distance : Nat} {recent done pool : List PivotEntry}

theorem mem_eligible {x : Nat × Nat} : x ∈ eligible recent pool ↔
    ∃ e, pool[x.1]? = some e ∧ (∀ r ∈ recent, r.pivot ≠ e.pivot) ∧ x.2 = pool.countP (·.pivot = e.pivot) := by
  unfold eligible
  simp only [List.mem_map, List.mem_filter, List.mem_zipIdx_iff_getElem?, List.all_eq_true, decide_eq_true_eq]
  constructor
  · rintro ⟨⟨e, i⟩, ⟨hget, hnew⟩, rfl⟩
    exact ⟨e, hget, hnew, rfl⟩
  · rintro ⟨e, hget, hnew, hcount⟩
    exact ⟨(e, x.1), ⟨hget, hnew⟩, Prod.ext rfl hcount.symm⟩

/-- What is picked: if the pivot of some entry has not been taken lately, the same holds for the entry that is picked, and
its pivot has at least as many entries left. -/
theorem pick_spec {e : PivotEntry} (hmem : e ∈ pool) (hnew : ∀ r ∈ recent, r.pivot ≠ e.pivot) :
    ∃ f, pool[pick recent pool]? = some f ∧ (∀ r ∈ recent, r.pivot ≠ f.pivot) ∧
      pool.countP (·.pivot = e.pivot) ≤ pool.countP (·.pivot = f.pivot) := by
  obtain ⟨i, hi⟩ := List.mem_iff_getElem?.mp hmem
  have he : (i, pool.countP (·.pivot = e.pivot)) ∈ eligible recent pool := mem_eligible.mpr ⟨e, hi, hnew, rfl⟩
  obtain ⟨x, hx⟩ := exists_heaviest he
  obtain ⟨f, hget, hfnew, hcount⟩ := mem_eligible.mp (heaviest_mem hx)
  refine ⟨f, ?_, hfnew, hcount ▸ le_heaviest hx _ he⟩
  rw [pick, hx]
  exact hget

/-- What was taken so far, the latest first, can be completed with the entries of a pool. -/
def Completable (distance : Nat) (done pool : List PivotEntry) : Prop :=
  ∃ rest : List Variable, rest.Perm (pool.map (·.pivot)) ∧ Apart distance ((done.map (·.pivot)).reverse ++ rest)

theorem far_of_not_recent {v : Variable} (h : ∀ r ∈ done.take (distance - 1), r.pivot ≠ v) (i : Nat)
    (hi : (done.map (·.pivot)).reverse[i]? = some v) : i + distance ≤ (done.map (·.pivot)).reverse.length := by
  have hlt := (List.getElem?_eq_some_iff.mp hi).1
  rw [List.length_reverse, List.length_map] at hlt ⊢
  by_contra hnear
  rw [List.getElem?_reverse (by simpa using hlt), List.length_map, List.getElem?_map, Option.map_eq_some_iff] at hi
  obtain ⟨r, hr, hpivot⟩ := hi
  refine h r (List.mem_iff_getElem?.mpr ⟨done.length - 1 - i, ?_⟩) hpivot
  rw [List.getElem?_take_of_lt (by omega), hr]

theorem not_recent_of_far {v : Variable} {rest : List Variable}
    (h : Apart distance ((done.map (·.pivot)).reverse ++ v :: rest)) :
    ∀ r ∈ done.take (distance - 1), r.pivot ≠ v := by
  rintro r hr rfl
  obtain ⟨i, hi⟩ := List.mem_iff_getElem?.mp hr
  have hlt := (List.getElem?_eq_some_iff.mp hi).1
  rw [List.length_take] at hlt
  rw [List.getElem?_take_of_lt (by omega)] at hi
  have hplace : ((done.map (·.pivot)).reverse ++ r.pivot :: rest)[done.length - 1 - i]? = some r.pivot := by
    rw [List.getElem?_append_left (by simp; omega), List.getElem?_reverse (by simp; omega), List.length_map,
      List.getElem?_map, show done.length - 1 - (done.length - 1 - i) = i by omega, hi]
    rfl
  have := h.le (j := done.length) (by omega) hplace (by simp)
  omega

/-- **One step of the greedy order**: what can be completed still can be after the entry that is picked. -/
theorem Completable.step (h : Completable distance done pool) (hne : pool ≠ []) :
    ∃ e, pool[pick (done.take (distance - 1)) pool]? = some e ∧
      Completable distance (e :: done) (pool.eraseIdx (pick (done.take (distance - 1)) pool)) := by
  obtain ⟨rest, hperm, hapart⟩ := h
  cases rest with
  | nil => exact absurd (List.map_eq_nil_iff.mp hperm.nil_eq.symm) hne
  | cons b t =>
    obtain ⟨x, hx, rfl⟩ := List.mem_map.mp (hperm.mem_iff.mp List.mem_cons_self)
    obtain ⟨e, hget, hnew, hcount⟩ := pick_spec hx (not_recent_of_far hapart)
    have hleft : ∀ v : Variable, (x.pivot :: t).count v = pool.countP (·.pivot = v) := by
      intro v
      rw [hperm.count_eq, List.count_eq_countP, List.countP_map]
      exact List.countP_congr fun e _ => by simp
    obtain ⟨t', hswap, hafter⟩ := hapart.exchange (a := e.pivot) (by rw [hleft, hleft]; exact hcount)
      (far_of_not_recent hnew)
    refine ⟨e, hget, t', ?_, by simpa using hafter⟩
    obtain ⟨hlt, rfl⟩ := List.getElem?_eq_some_iff.mp hget
    have htaken := (List.getElem_cons_eraseIdx_perm hlt).map (·.pivot)
    exact List.Perm.cons_inv ((hswap.trans hperm).trans htaken.symm)

/-- The greedy order keeps the distance whenever what it starts from can be completed. -/
theorem arrange_apart (n : Nat) (hn : pool.length = n) (h : Completable distance done pool) :
    Apart distance ((arrange (distance - 1) n done pool).map (·.pivot)) := by
  induction n generalizing done pool with
  | zero =>
    obtain ⟨rest, hperm, hapart⟩ := h
    rw [List.length_eq_zero_iff.mp hn, List.map_nil, List.perm_nil] at hperm
    rw [hperm, List.append_nil] at hapart
    rwa [arrange, List.map_reverse]
  | succ n ih =>
    obtain ⟨e, hget, hstep⟩ := h.step (List.ne_nil_of_length_eq_add_one hn)
    have hlt := (List.getElem?_eq_some_iff.mp hget).1
    rw [arrange, hget]
    exact ih (by rw [List.length_eraseIdx_of_lt hlt, hn, Nat.add_sub_cancel]) hstep

/-- **The spaced order.**  Whatever the shuffle does, the entries come out in some order; if they have any order at all in
which entries with the same pivot are at least a distance apart, then that order is one; and no count of the entries left
falls below zero on the way. -/
theorem spacedShuffle_spec {γ : Type} [Generator γ] [Generator.Lawful γ] (g : γ) (distance : Nat)
    (pool : List PivotEntry) :
    let out := (spacedShuffle g distance pool).1
    out.Perm pool ∧
    ((∃ order : List PivotEntry, order.Perm pool ∧ Apart distance (order.map (·.pivot))) →
      Apart distance (out.map (·.pivot))) ∧
    spacedShuffleChecked g distance pool = some (spacedShuffle g distance pool) := by
  refine ⟨spacedShuffle_perm g distance pool, ?_, spacedShuffleChecked_eq g distance pool⟩
  rintro ⟨order, hperm, hapart⟩
  have hstart : Completable distance [] (Generator.shuffle g pool).1 :=
    ⟨order.map (·.pivot), (hperm.trans (Generator.Lawful.shuffle_perm g pool).symm).map _, by simpa using hapart⟩
  exact arrange_apart _ rfl hstart

/-- Seven entries that have next to no choice at distance three: the pivot that has three of them begins, stands in the
middle and ends. -/
theorem spacedShuffle_spec_of_seven :
    let entry : Nat → Nat → PivotEntry := fun i j => .primary ⟨i⟩ ⟨0, j⟩
    let pool := [entry 0 2, entry 1 2, entry 2 1, entry 3 0, entry 4 0, entry 5 1, entry 6 0]
    let out := (spacedShuffle (KeyStream.ofSeed 7) 3 pool).1
    ¬ Apart 3 (pool.map (·.pivot)) ∧ out.Perm pool ∧ Apart 3 (out.map (·.pivot)) := by
  intro entry pool out
  obtain ⟨hperm, hapart, -⟩ := spacedShuffle_spec (KeyStream.ofSeed 7) 3 pool
  let order := [entry 3 0, entry 2 1, entry 0 2, entry 4 0, entry 5 1, entry 1 2, entry 6 0]
  exact ⟨by decide, hperm, hapart ⟨order, by decide, by decide⟩⟩

end TwoPhase

end SoftLinear
