import Mathlib.Algebra.Order.Field.Rat
import Mathlib.Tactic.NormNum
import SoftLinear.Scalar

/-!
# The order of scalars

What the two readings of `Scalar` have in common when scalars are compared: an undefined scalar compares with nothing,
and of two defined ones the first is at most the second or else the second is below the first (`Scalar.Ordered`).
Rational numbers have no undefined member; for binary64 the laws are read off the comparison of unpacked numbers.
-/

namespace SoftLinear

/-- The laws of comparison that hold in every reading of the library. -/
class Scalar.Ordered (α : Type) [Scalar α] : Prop where
  defined_of_lt : ∀ {a b : α}, a < b → isNaN a = false ∧ isNaN b = false
  lt_of_not_le : ∀ {a b : α}, isNaN a = false → isNaN b = false → ¬ a ≤ b → b < a
  zero_defined : isNaN (0 : α) = false
  small_pos : (0 : α) < 1e-10

/-! ## Binary64 -/

section Binary64

open Float.Model

theorem unpacked_compare_self {a : UnpackedFloat} (ha : a.isNaN = false) : a.compare a = some .eq := by
  cases a with
  | notANumber => exact absurd ha (by decide)
  | infinity s => cases s <;> rfl
  | zero s => rfl
  | finite s m e hm =>
    have h : (compare e e).then (compare m m) = .eq := by simp
    cases s with
    | negative => exact congrArg (fun o => some o.swap) h
    | positive => exact congrArg some h

theorem unpacked_nan_compare {a b : UnpackedFloat} (h : a.compare b = none) :
    a.isNaN = true ∨ b.isNaN = true := by
  cases a with
  | notANumber => exact .inl rfl
  | infinity s =>
    cases b with
    | notANumber => exact .inr rfl
    | _ => cases s <;> cases h
  | zero s =>
    cases b with
    | notANumber => exact .inr rfl
    | zero t => cases h
    | infinity t => cases t <;> cases h
    | finite t m e hm => cases t <;> cases h
  | finite s m e hm =>
    cases b with
    | notANumber => exact .inr rfl
    | zero t => cases s <;> cases h
    | infinity t => cases s <;> cases t <;> cases h
    | finite t m e hm => cases s <;> cases t <;> cases h

theorem unpacked_compare_nan {a b : UnpackedFloat} (h : a.isNaN = true ∨ b.isNaN = true) : a.compare b = none := by
  rcases h with h | h
  · cases a with
    | notANumber => rfl
    | _ => cases h
  · cases b with
    | notANumber => cases a with
      | notANumber => rfl
      | infinity s => cases s <;> rfl
      | zero s => rfl
      | finite s m e hm => cases s <;> rfl
    | _ => cases h

theorem unpacked_compare_swap (a b : UnpackedFloat) : b.compare a = (a.compare b).map Ordering.swap := by
  cases a with
  | notANumber => rw [unpacked_compare_nan (.inr rfl), unpacked_compare_nan (.inl rfl)]; rfl
  | infinity s =>
    cases b with
    | infinity t => cases s <;> cases t <;> rfl
    | _ => cases s <;> rfl
  | zero s =>
    cases b with
    | notANumber => rfl
    | zero t => rfl
    | infinity t => cases t <;> rfl
    | finite t m e hm => cases t <;> rfl
  | finite s m e hm =>
    cases b with
    | notANumber => cases s <;> rfl
    | zero t => cases s <;> rfl
    | infinity t => cases s <;> cases t <;> rfl
    | finite t m' e' hm' =>
      have h : (compare e' e).then (compare m' m) = ((compare e e').then (compare m m')).swap := by
        rw [Ordering.swap_then, ← Std.OrientedCmp.eq_swap, ← Std.OrientedCmp.eq_swap]
      cases s <;> cases t
      · exact congrArg (fun o => some o.swap) h
      · rfl
      · rfl
      · exact congrArg some h

theorem float_lt_iff {a b : Float} : a < b ↔ a.toModel.unpack.compare b.toModel.unpack = some .lt := by
  show Float.lt a b = true ↔ _
  simp only [Float.lt, decide_eq_true_eq]
  show UnpackedFloat.lt _ _ = true ↔ _
  simp [UnpackedFloat.lt]

theorem float_le_iff {a b : Float} :
    a ≤ b ↔ (a.toModel.unpack.compare b.toModel.unpack).any Ordering.isLE = true := by
  show Float.le a b = true ↔ _
  simp only [Float.le, decide_eq_true_eq]
  rfl

theorem float_isNaN_iff {a : Float} : Scalar.isNaN a = false ↔ a.toModel.unpack.isNaN = false := by
  have h : Scalar.isNaN a = !(a.toModel.unpack.compare a.toModel.unpack == some .eq) := rfl
  rw [h]
  cases hn : a.toModel.unpack.isNaN with
  | true => rw [unpacked_compare_nan (.inl hn)]; decide
  | false => rw [unpacked_compare_self hn]; decide

instance : Scalar.Ordered Float where
  defined_of_lt {a b} h := by
    rw [float_lt_iff] at h
    rw [float_isNaN_iff, float_isNaN_iff, ← Bool.not_eq_true, ← Bool.not_eq_true, ← not_or]
    intro hn
    rw [unpacked_compare_nan hn] at h
    cases h
  lt_of_not_le {a b} ha hb h := by
    rw [float_isNaN_iff] at ha hb
    rw [float_le_iff] at h
    rw [float_lt_iff, unpacked_compare_swap a.toModel.unpack]
    cases hc : a.toModel.unpack.compare b.toModel.unpack with
    | none =>
      rcases unpacked_nan_compare hc with hn | hn
      · rw [ha] at hn; cases hn
      · rw [hb] at hn; cases hn
    | some o => cases o <;> simp_all
  zero_defined := by decide +kernel
  small_pos := by decide +kernel

end Binary64

/-! ## Rational numbers -/

section Rational

@[simp] theorem rat_isNaN (a : Rat) : Scalar.isNaN a = false := by
  show (!(a == a)) = false
  simp

@[simp] theorem rat_abs (a : Rat) : Scalar.abs a = |a| := by
  show (if a < 0 then -a else a) = |a|
  split
  · rename_i h; exact (abs_of_neg h).symm
  · rename_i h; exact (abs_of_nonneg (not_lt.mp h)).symm

@[simp] theorem rat_larger (a b : Rat) : Scalar.larger a b = max a b := by
  simp only [Scalar.larger, rat_isNaN, Bool.false_eq_true, if_false]
  split
  · rename_i h; exact (max_eq_right (le_of_lt h)).symm
  · rename_i h; exact (max_eq_left (not_lt.mp h)).symm

@[simp] theorem rat_smaller (a b : Rat) : Scalar.smaller a b = min a b := by
  simp only [Scalar.smaller, rat_isNaN, Bool.false_eq_true, if_false]
  split
  · rename_i h; exact (min_eq_right (le_of_lt h)).symm
  · rename_i h; exact (min_eq_left (not_lt.mp h)).symm

instance : Scalar.Ordered Rat where
  defined_of_lt _ := ⟨rat_isNaN _, rat_isNaN _⟩
  lt_of_not_le _ _ h := not_le.mp h
  zero_defined := rat_isNaN 0
  small_pos := by
    show (0 : Rat) < 1e-10
    norm_num

end Rational

/-! ## Running maxima -/

namespace Scalar

variable {α : Type} [Scalar α] [Ordered α]

theorem larger_defined {a b : α} (ha : isNaN a = false) : isNaN (larger a b) = false := by
  unfold larger
  rw [if_neg (by simp [ha])]
  split
  · rename_i h; exact (Ordered.defined_of_lt h).2
  · exact ha

theorem foldl_larger_defined {β : Type} (f : β → α) (l : List β) {a : α} (ha : isNaN a = false) :
    isNaN (l.foldl (fun acc x => larger acc (f x)) a) = false := by
  induction l generalizing a with
  | nil => exact ha
  | cons x l ih => exact ih (larger_defined ha)

end Scalar

end SoftLinear
