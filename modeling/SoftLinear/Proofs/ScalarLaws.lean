import Mathlib.Data.Prod.Lex
import SoftLinear.Constraint.Basic
import SoftLinear.Proofs.ScalarOrder

/-!
# The laws of scalars

What rounding leaves of the laws of an ordered field, as far as the library relies on it (`Scalar.Lawful`): among defined
scalars the order is linear up to equality, magnitudes are defined where the scalar is, and adding a finite scalar never
makes a defined one undefined.

For binary64 the order is that of a key (`unpackedKey`): the class of the number, then exponent and mantissa, with the
sign taken into both.  That a sum is defined is read off the unpacked sum, since packing keeps what is undefined
(`isNaN_unpack_pack`).
-/

namespace SoftLinear

/-- The laws of arithmetic and comparison that hold in every reading of the library. -/
class Scalar.Lawful (α : Type) [Scalar α] : Prop extends Scalar.Ordered α where
  lt_irrefl : ∀ a : α, ¬ a < a
  lt_trans : ∀ {a b c : α}, a < b → b < c → a < c
  lt_or_lt : ∀ {a b c : α}, a < b → isNaN c = false → a < c ∨ c < b
  not_le_of_lt : ∀ {a b : α}, a < b → ¬ b ≤ a
  isNaN_abs : ∀ a : α, isNaN (abs a) = isNaN a
  defined_of_isFinite : ∀ {a : α}, isFinite a = true → isNaN a = false
  add_defined : ∀ {a b : α}, isNaN a = false → isFinite b = true → isNaN (a + b) = false
  nearZero_pos : (0 : α) < nearZero

/-! ## Binary64 -/

section Binary64

open Float.Model Float.Model.UnpackedFloat

/-- The place of a number in the order: its class, then exponent and mantissa, turned around for negative numbers. -/
def unpackedKey : UnpackedFloat → ℤ ×ₗ ℤ ×ₗ ℤ
  | .notANumber => toLex (0, toLex (0, 0))
  | .zero _ => toLex (0, toLex (0, 0))
  | .infinity .negative => toLex (-2, toLex (0, 0))
  | .infinity .positive => toLex (2, toLex (0, 0))
  | .finite .negative m e _ => toLex (-1, toLex (-e, -m))
  | .finite .positive m e _ => toLex (1, toLex (e, m))

theorem key_lt_of_class {x y : ℤ} (h : x < y) (p q : ℤ ×ₗ ℤ) : (toLex (x, p) : ℤ ×ₗ ℤ ×ₗ ℤ) < toLex (y, q) :=
  Prod.Lex.toLex_lt_toLex.mpr (.inl h)

theorem not_key_lt_of_class {x y : ℤ} (h : x < y) (p q : ℤ ×ₗ ℤ) : ¬ (toLex (y, q) : ℤ ×ₗ ℤ ×ₗ ℤ) < toLex (x, p) :=
  lt_asymm (key_lt_of_class h p q)

theorem key_lt_iff (x e e' m m' : ℤ) :
    (toLex (x, toLex (e, m)) : ℤ ×ₗ ℤ ×ₗ ℤ) < toLex (x, toLex (e', m')) ↔ e < e' ∨ e = e' ∧ m < m' := by
  simp [Prod.Lex.toLex_lt_toLex]

theorem unpacked_lt_iff {a b : UnpackedFloat} (ha : a.isNaN = false) (hb : b.isNaN = false) :
    a.compare b = some .lt ↔ unpackedKey a < unpackedKey b := by
  -- numbers of two different classes are ordered by the class
  cases a with
  | notANumber => cases ha
  | infinity s =>
    cases b with
    | notANumber => cases hb
    | infinity t => cases s <;> cases t <;> decide
    | zero t =>
      cases s
      · exact iff_of_true rfl (key_lt_of_class (by decide) _ _)
      · exact iff_of_false nofun (not_key_lt_of_class (by decide) _ _)
    | finite t m e hm =>
      cases s <;> cases t
      · exact iff_of_true rfl (key_lt_of_class (by decide) _ _)
      · exact iff_of_true rfl (key_lt_of_class (by decide) _ _)
      · exact iff_of_false nofun (not_key_lt_of_class (by decide) _ _)
      · exact iff_of_false nofun (not_key_lt_of_class (by decide) _ _)
  | zero s =>
    cases b with
    | notANumber => cases hb
    | infinity t =>
      cases t
      · exact iff_of_false nofun (not_key_lt_of_class (by decide) _ _)
      · exact iff_of_true rfl (key_lt_of_class (by decide) _ _)
    | zero t => exact iff_of_false nofun (lt_irrefl _)
    | finite t m e hm =>
      cases t
      · exact iff_of_false nofun (not_key_lt_of_class (by decide) _ _)
      · exact iff_of_true rfl (key_lt_of_class (by decide) _ _)
  | finite s m e hm =>
    cases b with
    | notANumber => cases hb
    | infinity t =>
      cases s <;> cases t
      · exact iff_of_false nofun (not_key_lt_of_class (by decide) _ _)
      · exact iff_of_true rfl (key_lt_of_class (by decide) _ _)
      · exact iff_of_false nofun (not_key_lt_of_class (by decide) _ _)
      · exact iff_of_true rfl (key_lt_of_class (by decide) _ _)
    | zero t =>
      cases s
      · exact iff_of_true rfl (key_lt_of_class (by decide) _ _)
      · exact iff_of_false nofun (not_key_lt_of_class (by decide) _ _)
    | finite t m' e' hm' =>
      cases s <;> cases t
      · -- both negative: the larger exponent, then the larger mantissa, is the smaller number
        show some ((compare e e').then (compare m m')).swap = some .lt ↔ _
        refine Iff.trans ?_ (key_lt_iff (-1) (-e) (-e') (-m) (-m')).symm
        rw [Option.some.injEq, Ordering.swap_eq_lt, Ordering.then_eq_gt, compare_gt_iff_gt, compare_eq_iff_eq,
          compare_gt_iff_gt]
        omega
      · exact iff_of_true rfl (key_lt_of_class (by decide) _ _)
      · exact iff_of_false nofun (not_key_lt_of_class (by decide) _ _)
      · -- both positive
        show some ((compare e e').then (compare m m')) = some .lt ↔ _
        refine Iff.trans ?_ (key_lt_iff 1 e e' m m').symm
        rw [Option.some.injEq, Ordering.then_eq_lt, compare_lt_iff_lt, compare_eq_iff_eq, compare_lt_iff_lt]
        omega

theorem float_lt_iff_key {a b : Float} : a < b ↔ Scalar.isNaN a = false ∧ Scalar.isNaN b = false ∧
    unpackedKey a.toModel.unpack < unpackedKey b.toModel.unpack := by
  constructor
  · intro h
    obtain ⟨ha, hb⟩ := Scalar.Ordered.defined_of_lt h
    refine ⟨ha, hb, (unpacked_lt_iff (float_isNaN_iff.mp ha) (float_isNaN_iff.mp hb)).mp (float_lt_iff.mp h)⟩
  · rintro ⟨ha, hb, h⟩
    exact float_lt_iff.mpr ((unpacked_lt_iff (float_isNaN_iff.mp ha) (float_isNaN_iff.mp hb)).mpr h)

/-! ### Packing -/

theorem isNaN_unpack (b : BitVec Format.binary64.numBits) : (UnpackedFloat.unpack Format.binary64 b).isNaN =
    (decide (unpackExponent b = -1#_) && decide (unpackMantissa b ≠ 0#_)) := by
  unfold UnpackedFloat.unpack
  lift_lets
  intro mantissa exponent _ _ _
  by_cases he : exponent = -1#_
  · rw [if_pos he, decide_eq_true he, Bool.true_and]
    by_cases hm : mantissa = 0#_
    · rw [if_pos hm, decide_eq_false (not_not.mpr hm)]
      rfl
    · rw [if_neg hm, decide_eq_true hm]
      rfl
  · rw [if_neg he, decide_eq_false he, Bool.false_and]
    by_cases hz : exponent = 0#_
    · rw [if_pos hz]
      by_cases hm : mantissa = 0#_
      · rw [dif_pos hm]
        rfl
      · rw [dif_neg hm]
        rfl
    · rw [if_neg hz]
      rfl

theorem isNaN_unpack_pack (f : UnpackedFloat) : (Float.Model.pack f).unpack.isNaN = f.isNaN := by
  show (UnpackedFloat.unpack Format.binary64 (UnpackedFloat.pack Format.binary64 f)).isNaN = f.isNaN
  rw [isNaN_unpack]
  cases f with
  | notANumber => decide
  | infinity s => cases s <;> decide
  | zero s => cases s <;> decide
  | finite s m e hm =>
    show _ = false
    unfold UnpackedFloat.pack
    lift_lets
    intro _ biased
    by_cases hlarge : 2 ^ Format.binary64.exponentBits ≤ biased + 1
    · rw [if_pos hlarge, packedInfinity, unpackMantissa_packComponents, unpackExponent_packComponents]
      rfl
    · rw [if_neg hlarge]
      split
      · -- the exponent fits, so it is not the one of an undefined number
        have hne : (BitVec.ofNat Format.binary64.exponentBits biased) ≠ -1#_ := by
          intro heq
          have htoNat := congrArg BitVec.toNat heq
          rw [BitVec.toNat_ofNat, Nat.mod_eq_of_lt (by omega), BitVec.neg_one_eq_allOnes,
            BitVec.toNat_allOnes] at htoNat
          omega
        rw [unpackExponent_packComponents, decide_eq_false hne]
        rfl
      · rw [unpackExponent_packComponents]
        rfl

theorem float_isNaN_pack {f : UnpackedFloat} :
    Scalar.isNaN (Float.ofModel (Float.Model.pack f)) = false ↔ f.isNaN = false := by
  rw [float_isNaN_iff, ← isNaN_unpack_pack f]

/-! ### Sums -/

theorem isNaN_finite_or_zero (s : Sign) (m : Nat) (e : Int) :
    (if h : m = 0 then UnpackedFloat.zero s else .finite s m e (Nat.pos_of_ne_zero h)).isNaN = false := by
  by_cases hm : m = 0
  · rw [dif_pos hm]
    rfl
  · rw [dif_neg hm]
    rfl

theorem isNaN_roundWithAccuracy (spec : Format) (s : Sign) (m : Nat) (e : Int) (accuracy : Accuracy) :
    (roundWithAccuracy spec s m e accuracy).isNaN = false :=
  isNaN_finite_or_zero s _ _

theorem isNaN_normalize (spec : Format) (m e : Int) (s : Sign) : (UnpackedFloat.normalize spec m e s).isNaN = false := by
  unfold UnpackedFloat.normalize
  split
  · exact isNaN_roundWithAccuracy _ _ _ _ _
  · rfl
  · exact isNaN_roundWithAccuracy _ _ _ _ _

theorem unpacked_defined_of_isFinite {a : UnpackedFloat} (h : a.isFinite = true) : a.isNaN = false := by
  cases a with
  | notANumber => cases h
  | _ => rfl

theorem unpacked_isFinite {a : Float} (h : Scalar.isFinite a = true) : a.toModel.unpack.isFinite = true := by
  have hsub : Scalar.isNaN (Float.ofModel
      (Float.Model.pack (UnpackedFloat.sub Format.binary64 a.toModel.unpack a.toModel.unpack))) = false := by
    unfold Scalar.isFinite at h
    rw [Bool.not_eq_true'] at h
    exact h
  rw [float_isNaN_pack] at hsub
  cases hu : a.toModel.unpack with
  | notANumber => rw [hu] at hsub; cases hsub
  | infinity s => rw [hu] at hsub; cases s <;> cases hsub
  | zero s => rfl
  | finite s m e hm => rfl

theorem isNaN_add {a b : UnpackedFloat} (ha : a.isNaN = false) (hb : b.isFinite = true) :
    (UnpackedFloat.add Format.binary64 a b).isNaN = false := by
  cases b with
  | notANumber => cases hb
  | infinity t => cases hb
  | zero t =>
    cases a with
    | notANumber => cases ha
    | infinity s => rfl
    | zero s => cases s <;> cases t <;> rfl
    | finite s m e hm => rfl
  | finite t m' e' hm' =>
    cases a with
    | notANumber => cases ha
    | infinity s => rfl
    | zero s => rfl
    | finite s m e hm => exact isNaN_normalize _ _ _ _

instance : Scalar.Lawful Float where
  lt_irrefl a h := lt_irrefl _ (float_lt_iff_key.mp h).2.2
  lt_trans hab hbc := by
    obtain ⟨ha, -, hab⟩ := float_lt_iff_key.mp hab
    obtain ⟨-, hc, hbc⟩ := float_lt_iff_key.mp hbc
    exact float_lt_iff_key.mpr ⟨ha, hc, hab.trans hbc⟩
  lt_or_lt {a b c} hab hc := by
    obtain ⟨ha, hb, hab⟩ := float_lt_iff_key.mp hab
    rcases lt_or_ge (unpackedKey a.toModel.unpack) (unpackedKey c.toModel.unpack) with hac | hca
    · exact .inl (float_lt_iff_key.mpr ⟨ha, hc, hac⟩)
    · exact .inr (float_lt_iff_key.mpr ⟨hc, hb, lt_of_le_of_lt hca hab⟩)
  not_le_of_lt {a b} hab hba := by
    rw [float_lt_iff] at hab
    rw [float_le_iff, unpacked_compare_swap a.toModel.unpack, hab] at hba
    cases hba
  isNaN_abs a := by
    have h : Scalar.isNaN (Scalar.abs a) = false ↔ Scalar.isNaN a = false := by
      refine float_isNaN_pack.trans (Iff.trans ?_ float_isNaN_iff.symm)
      cases a.toModel.unpack <;> rfl
    exact Bool.eq_iff_iff.mpr (by simpa using not_congr h)
  defined_of_isFinite h := float_isNaN_iff.mpr (unpacked_defined_of_isFinite (unpacked_isFinite h))
  add_defined ha hb := float_isNaN_pack.mpr (isNaN_add (float_isNaN_iff.mp ha) (unpacked_isFinite hb))
  nearZero_pos := by decide +kernel

end Binary64

/-! ## Rational numbers -/

instance : Scalar.Lawful Rat where
  lt_irrefl a := lt_irrefl a
  lt_trans hab hbc := lt_trans hab hbc
  lt_or_lt {a b c} hab _ := (lt_or_ge a c).imp id fun hca => lt_of_le_of_lt hca hab
  not_le_of_lt hab := not_le.mpr hab
  isNaN_abs a := by rw [rat_isNaN, rat_isNaN]
  defined_of_isFinite _ := rat_isNaN _
  add_defined _ _ := rat_isNaN _
  nearZero_pos := by
    show (0 : Rat) < 1e-12
    norm_num

/-! ## The order of the defined scalars -/

namespace Scalar

variable {α : Type} [Scalar α] {a b c : α}

theorem le_of_not_lt [Ordered α] (ha : isNaN a = false) (hb : isNaN b = false) (h : ¬ b < a) : a ≤ b :=
  not_not.mp fun hle => h (Ordered.lt_of_not_le ha hb hle)

variable [Lawful α]

theorem le_total_of_defined (ha : isNaN a = false) (hb : isNaN b = false) : a ≤ b ∨ b ≤ a := by
  by_cases h : a ≤ b
  · exact .inl h
  · have hlt : b < a := Ordered.lt_of_not_le ha hb h
    exact .inr (le_of_not_lt hb ha fun hlt' => Lawful.lt_irrefl b (Lawful.lt_trans hlt hlt'))

theorem le_trans_of_defined (ha : isNaN a = false) (hb : isNaN b = false) (hc : isNaN c = false) (hab : a ≤ b)
    (hbc : b ≤ c) : a ≤ c := by
  refine le_of_not_lt ha hc fun hlt => ?_
  rcases Lawful.lt_or_lt hlt hb with h | h
  · exact Lawful.not_le_of_lt h hbc
  · exact Lawful.not_le_of_lt h hab

end Scalar

/-! ## Running maxima -/

namespace Scalar

variable {α : Type} [Scalar α] [Lawful α]

theorem lt_of_foldl_larger_lt {β : Type} {f : β → α} {l : List β} {a bound : α} (ha : isNaN a = false)
    (h : l.foldl (fun acc x => larger acc (f x)) a < bound) :
    a < bound ∧ ∀ x ∈ l, isNaN (f x) = false → f x < bound := by
  induction l generalizing a with
  | nil => exact ⟨h, by simp⟩
  | cons x l ih =>
    obtain ⟨hstart, hrest⟩ := ih (larger_defined ha) h
    have hboth : a < bound ∧ (isNaN (f x) = false → f x < bound) := by
      unfold larger at hstart
      rw [if_neg (by simp [ha])] at hstart
      split at hstart
      · rename_i hlt
        exact ⟨Lawful.lt_trans hlt hstart, fun _ => hstart⟩
      · rename_i hnot
        exact ⟨hstart, fun hx => (Lawful.lt_or_lt hstart hx).resolve_left hnot⟩
    refine ⟨hboth.1, ?_⟩
    intro y hy
    rcases List.mem_cons.mp hy with rfl | hy
    · exact hboth.2
    · exact hrest y hy

end Scalar

end SoftLinear
