import SoftLinear.Proofs.Pivots

/-!
# The laws of shares

The share of a term is its magnitude divided by the sum of the magnitudes, if that sum does not count as zero.  What a
share relies on beyond the laws of comparison is collected in `Scalar.Divisible`: what zero stays zero under, that a
finite scalar can be divided by what does not count as zero, and that a sum is undefined when one of its members is.

* A term of weight zero has a share that counts as zero (`Constraint.dominance_le_of_zero`).
* With finite weights every share is defined (`Constraint.influence_defined`), also where the sum of the magnitudes
  overflows.
* With an undefined weight there are no shares at all (`Constraint.defined_of_dominance`).
-/

namespace SoftLinear

/-- The laws of division and addition that shares rely on. -/
class Scalar.Divisible (α : Type) [Scalar α] : Prop extends Scalar.Lawful α where
  defined_of_zero : ∀ {a : α}, (a == 0) = true → isNaN a = false
  abs_zero : ∀ {a : α}, (a == 0) = true → (abs a == 0) = true
  abs_finite : ∀ {a : α}, isFinite a = true → isFinite (abs a) = true
  zero_le : ∀ {a : α}, (a == 0) = true → a ≤ nearZero
  zero_div : ∀ {a b : α}, (a == 0) = true → nearZero < b → (a / b == 0) = true
  div_defined : ∀ {a b : α}, isFinite a = true → nearZero < b → isNaN (a / b) = false
  add_undefined : ∀ {a b : α}, isNaN a = true ∨ isNaN b = true → isNaN (a + b) = true

/-! ## Binary64 -/

section Binary64

open Float.Model Float.Model.UnpackedFloat

/-- **What bits are unpacked to**: with the exponent of infinity nothing finite, otherwise zero or a number, of which the
exponent is not the one of infinity. -/
theorem unpack_cases (b : BitVec Format.binary64.numBits) :
    (unpackExponent b = -1#_ ∧ (UnpackedFloat.unpack Format.binary64 b).isFinite = false) ∨
    (unpackExponent b ≠ -1#_ ∧ ∃ s, UnpackedFloat.unpack Format.binary64 b = .zero s) ∨
    (unpackExponent b ≠ -1#_ ∧ ∃ (s : Sign) (m : Nat) (e : Int) (hm : 0 < m),
      UnpackedFloat.unpack Format.binary64 b = .finite s m e hm ∧ (e + 1023 + 52).toNat + 1 < 2 ^ 11) := by
  unfold UnpackedFloat.unpack
  lift_lets
  intro mantissa exponent value _ sign
  have hvalue : value = (exponent.toNat : Int) - (1023 + 52) := rfl
  have hlt : exponent.toNat < 2 ^ 11 := exponent.isLt
  by_cases he : exponent = -1#_
  · refine .inl ⟨he, ?_⟩
    rw [if_pos he]
    by_cases hmantissa : mantissa = 0#_
    · rw [if_pos hmantissa]
      rfl
    · rw [if_neg hmantissa]
      rfl
  · have hne : exponent.toNat ≠ 2 ^ 11 - 1 := fun heq => he (BitVec.eq_of_toNat_eq heq)
    rw [if_neg he]
    -- zero and the subnormal numbers share an exponent; the others have a leading one
    by_cases hsmall : exponent = 0#_
    · have hzero : exponent.toNat = 0 := congrArg BitVec.toNat hsmall
      rw [if_pos hsmall]
      by_cases hmantissa : mantissa = 0#_
      · exact .inr (.inl ⟨he, sign, dif_pos hmantissa⟩)
      · have hpos : 0 < mantissa.toNat := Nat.pos_of_ne_zero fun hzero => hmantissa (BitVec.eq_of_toNat_eq hzero)
        exact .inr (.inr ⟨he, sign, mantissa.toNat, value + 1, hpos, dif_neg hmantissa, by omega⟩)
    · have hpos : 0 < (1#1 ++ mantissa).toNat := by
        rw [BitVec.toNat_append]
        exact Nat.lt_of_lt_of_le (by decide) Nat.left_le_or
      rw [if_neg hsmall]
      exact .inr (.inr ⟨he, sign, (1#1 ++ mantissa).toNat, value, hpos, rfl, by omega⟩)

theorem isFinite_unpack (b : BitVec Format.binary64.numBits) :
    (UnpackedFloat.unpack Format.binary64 b).isFinite = !decide (unpackExponent b = -1#_) := by
  rcases unpack_cases b with ⟨he, hb⟩ | ⟨he, s, hb⟩ | ⟨he, s, m, e, hm, hb, -⟩
  · rw [hb, decide_eq_true he]
    rfl
  · rw [hb, decide_eq_false he]
    rfl
  · rw [hb, decide_eq_false he]
    rfl

theorem exponent_of_unpack {b : BitVec Format.binary64.numBits} {s : Sign} {m : Nat} {e : Int} {hm : 0 < m}
    (h : UnpackedFloat.unpack Format.binary64 b = .finite s m e hm) : (e + 1023 + 52).toNat + 1 < 2 ^ 11 := by
  rcases unpack_cases b with ⟨-, hb⟩ | ⟨-, s', hb⟩ | ⟨-, s', m', e', hm', hb, hlt⟩
  · rw [h] at hb
    cases hb
  · rw [h] at hb
    cases hb
  · obtain ⟨-, -, rfl⟩ := UnpackedFloat.finite.inj (hb.symm.trans h)
    exact hlt

theorem isFinite_unpack_pack {s : Sign} {m : Nat} {e : Int} {hm : 0 < m} (h : (e + 1023 + 52).toNat + 1 < 2 ^ 11) :
    (Float.Model.pack (.finite s m e hm)).unpack.isFinite = true := by
  show (UnpackedFloat.unpack Format.binary64 (UnpackedFloat.pack Format.binary64 (.finite s m e hm))).isFinite = true
  rw [isFinite_unpack, Bool.not_eq_true', decide_eq_false_iff_not]
  unfold UnpackedFloat.pack
  lift_lets
  intro _ biased
  have hbiased : biased = (e + 1023 + 52).toNat := rfl
  rw [if_neg (show ¬ 2 ^ 11 ≤ biased + 1 by omega)]
  split
  · rw [unpackExponent_packComponents]
    intro heq
    have htoNat := congrArg BitVec.toNat heq
    rw [BitVec.toNat_ofNat, Nat.mod_eq_of_lt (show biased < 2 ^ 11 by omega), BitVec.neg_one_eq_allOnes,
      BitVec.toNat_allOnes] at htoNat
    have : biased = 2 ^ 11 - 1 := htoNat
    omega
  · rw [unpackExponent_packComponents]
    decide

theorem float_isFinite_iff {a : Float} : Scalar.isFinite a = true ↔ a.toModel.unpack.isFinite = true := by
  refine ⟨unpacked_isFinite, fun h => ?_⟩
  have hsub : Scalar.isNaN (Float.ofModel
      (Float.Model.pack (UnpackedFloat.sub Format.binary64 a.toModel.unpack a.toModel.unpack))) = false := by
    rw [float_isNaN_pack]
    cases hu : a.toModel.unpack with
    | notANumber => rw [hu] at h; cases h
    | infinity s => rw [hu] at h; cases h
    | zero s => cases s <;> rfl
    | finite s m e hm => exact isNaN_normalize _ _ _ _
  unfold Scalar.isFinite
  rw [Bool.not_eq_true']
  exact hsub

theorem float_beq_zero_iff {a : Float} : (a == 0) = true ↔ ∃ s, a.toModel.unpack = .zero s := by
  show (a.toModel.unpack.compare (.zero .positive) == some .eq) = true ↔ _
  constructor
  · intro h
    have h := eq_of_beq h
    cases hu : a.toModel.unpack with
    | notANumber => rw [hu] at h; cases h
    | infinity s => rw [hu] at h; cases s <;> cases h
    | zero s => exact ⟨s, rfl⟩
    | finite s m e hm => rw [hu] at h; cases s <;> cases h
  · rintro ⟨s, hs⟩
    rw [hs]
    cases s <;> rfl

theorem float_beq_zero_pack (s : Sign) : (Float.ofModel (Float.Model.pack (.zero s)) == (0 : Float)) = true :=
  float_beq_zero_iff.mpr ⟨s, by cases s <;> rfl⟩

theorem unpacked_of_pos {b : Float} (h : 0 < b) :
    b.toModel.unpack = .infinity .positive ∨ ∃ m e hm, b.toModel.unpack = .finite .positive m e hm := by
  have hlt : UnpackedFloat.compare (.zero .positive) b.toModel.unpack = some .lt := float_lt_iff.mp h
  cases hb : b.toModel.unpack with
  | notANumber => rw [hb] at hlt; cases hlt
  | zero s => rw [hb] at hlt; cases hlt
  | infinity s =>
    cases s with
    | positive => exact .inl rfl
    | negative => rw [hb] at hlt; cases hlt
  | finite s m e hm =>
    cases s with
    | positive => exact .inr ⟨m, e, hm, rfl⟩
    | negative => rw [hb] at hlt; cases hlt

theorem isNaN_add_of_isNaN {a b : UnpackedFloat} (h : a.isNaN = true ∨ b.isNaN = true) :
    (UnpackedFloat.add Format.binary64 a b).isNaN = true := by
  cases a with
  | notANumber => rfl
  | _ =>
    cases b with
    | notANumber => rfl
    | _ => rcases h with h | h <;> cases h

instance : Scalar.Divisible Float where
  defined_of_zero h := by
    obtain ⟨s, hs⟩ := float_beq_zero_iff.mp h
    rw [float_isNaN_iff, hs]
    rfl
  abs_zero h := by
    obtain ⟨s, hs⟩ := float_beq_zero_iff.mp h
    show (Float.ofModel (Float.Model.pack (UnpackedFloat.abs _)) == (0 : Float)) = true
    rw [hs]
    exact float_beq_zero_pack _
  abs_finite {a} h := by
    rw [float_isFinite_iff] at h ⊢
    show (Float.Model.pack a.toModel.unpack.abs).unpack.isFinite = true
    cases hu : a.toModel.unpack with
    | notANumber => rw [hu] at h; cases h
    | infinity s => rw [hu] at h; cases h
    | zero s => exact (by decide : (Float.Model.pack (.zero .positive)).unpack.isFinite = true)
    | finite s m e hm => exact isFinite_unpack_pack (exponent_of_unpack hu)
  zero_le {a} h := by
    obtain ⟨s, hs⟩ := float_beq_zero_iff.mp h
    rw [float_le_iff, hs]
    cases s <;> decide +kernel
  zero_div {a b} h hb := by
    obtain ⟨s, hs⟩ := float_beq_zero_iff.mp h
    show (Float.ofModel (Float.Model.pack (UnpackedFloat.div Format.binary64 _ _)) == (0 : Float)) = true
    rw [hs]
    rcases unpacked_of_pos (Scalar.Lawful.lt_trans Scalar.Lawful.nearZero_pos hb) with hb | ⟨m, e, hm, hb⟩
    · rw [hb]
      exact float_beq_zero_pack _
    · rw [hb]
      exact float_beq_zero_pack _
  div_defined {a b} ha hb := by
    have ha := unpacked_isFinite ha
    refine float_isNaN_pack.mpr ?_
    rcases unpacked_of_pos (Scalar.Lawful.lt_trans Scalar.Lawful.nearZero_pos hb) with hb | ⟨m, e, hm, hb⟩
    · rw [hb]
      cases hu : a.toModel.unpack with
      | notANumber => rw [hu] at ha; cases ha
      | infinity s => rw [hu] at ha; cases ha
      | zero s => rfl
      | finite s m e hm => rfl
    · rw [hb]
      cases hu : a.toModel.unpack with
      | notANumber => rw [hu] at ha; cases ha
      | infinity s => rw [hu] at ha; cases ha
      | zero s => rfl
      | finite s m e hm => exact isNaN_roundWithAccuracy _ _ _ _ _
  add_undefined {a b} h := by
    have hiff : ∀ x : Float, Scalar.isNaN x = true ↔ x.toModel.unpack.isNaN = true :=
      fun x => by rw [← Bool.not_eq_false, float_isNaN_iff, Bool.not_eq_false]
    rw [hiff, hiff] at h
    rw [← Bool.not_eq_false]
    intro hdefined
    exact absurd (isNaN_add_of_isNaN h) (by rw [float_isNaN_pack.mp hdefined]; nofun)

end Binary64

/-! ## Rational numbers -/

instance : Scalar.Divisible Rat where
  defined_of_zero _ := rat_isNaN _
  abs_zero {a} h := by
    rw [rat_abs]
    simpa using h
  abs_finite _ := by simp [Scalar.isFinite]
  zero_le {a} h := by
    rw [eq_of_beq h]
    exact le_of_lt Scalar.Lawful.nearZero_pos
  zero_div {a b} h _ := by
    rw [eq_of_beq h, zero_div]
    rfl
  div_defined _ _ := rat_isNaN _
  add_undefined h := by simp at h

/-! ## Shares -/

variable {α : Type} [Scalar α] [Scalar.Divisible α]

theorem Scalar.zero_le_nearZero : (0 : α) ≤ nearZero := by
  refine Scalar.Divisible.zero_le ?_
  have hdefined : (!((0 : α) == 0)) = false := Scalar.Ordered.zero_defined
  simpa using hdefined

theorem total_undefined {xs : List α} {x : α} (hx : x ∈ xs) (h : Scalar.isNaN x = true) :
    Scalar.isNaN (total xs) = true := by
  have hkept : ∀ (l : List α) {a : α}, Scalar.isNaN a = true → Scalar.isNaN (l.foldl (· + ·) a) = true := by
    intro l
    induction l with
    | nil => exact fun ha => ha
    | cons y l ih => exact fun ha => ih (Scalar.Divisible.add_undefined (.inl ha))
  obtain ⟨before, after, rfl⟩ := List.append_of_mem hx
  rw [total, List.foldl_append, List.foldl_cons]
  exact hkept after (Scalar.Divisible.add_undefined (.inr h))

omit [Scalar.Divisible α] in
/-- That all weights of a system are finite can be checked place by place. -/
theorem System.finite_of_all {s : System α} (h : (s.constraints.all fun c? => c?.all fun c => c.terms.all fun t =>
    Scalar.isFinite t.coefficient) = true) :
    ∀ id c, s.constraint? id = some c → ∀ t ∈ c.terms, Scalar.isFinite t.coefficient = true := by
  intro id c hc t ht
  have hplace := Array.mem_of_getElem? (Option.join_eq_some_iff.mp hc)
  exact List.all_eq_true.mp (Array.all_eq_true'.mp h _ hplace) t ht

namespace Constraint

variable {c : Constraint α}

theorem dominance_le_of_zero {i : Nat} {t : Term α} (ht : c.terms[i]? = some t) (h : (t.coefficient == 0) = true) :
    c.dominance i ≤ nearZero := by
  unfold dominance
  rw [ht]
  dsimp only
  split
  · rename_i hsum
    exact Scalar.Divisible.zero_le (Scalar.Divisible.zero_div (Scalar.Divisible.abs_zero h) hsum)
  · exact Scalar.zero_le_nearZero

theorem defined_of_dominance {i : Nat} (h : ¬ c.dominance i ≤ nearZero) : c.Defined := by
  have hsum : nearZero < c.absSum := by
    by_contra hsum
    apply h
    unfold dominance
    split
    · rw [if_neg hsum]
      exact Scalar.zero_le_nearZero
    · exact Scalar.zero_le_nearZero
  intro t ht
  rw [← Scalar.Lawful.isNaN_abs, ← Bool.not_eq_true]
  intro hnan
  have habs : Scalar.abs t.coefficient ∈ c.terms.map fun t => Scalar.abs t.coefficient := List.mem_map.mpr ⟨t, ht, rfl⟩
  have hundefined : Scalar.isNaN c.absSum = true := total_undefined habs hnan
  rw [(Scalar.Ordered.defined_of_lt hsum).2] at hundefined
  cases hundefined

theorem dominance_defined (h : ∀ t ∈ c.terms, Scalar.isFinite t.coefficient = true) (i : Nat) :
    Scalar.isNaN (c.dominance i) = false := by
  unfold dominance
  split
  · rename_i t ht
    split
    · rename_i hsum
      exact Scalar.Divisible.div_defined (Scalar.Divisible.abs_finite (h t (List.mem_of_getElem? ht))) hsum
    · exact Scalar.Ordered.zero_defined
  · exact Scalar.Ordered.zero_defined

theorem influence_defined (h : ∀ t ∈ c.terms, Scalar.isFinite t.coefficient = true) (v : Variable) :
    Scalar.isNaN (c.influence v) = false := by
  unfold influence
  split
  · exact dominance_defined h _
  · exact Scalar.Ordered.zero_defined

end Constraint

end SoftLinear
