import Mathlib
import VectorPaint.Scalar

/-!
Exact arithmetic: the real numbers as a scalar. Every value is finite and equal to itself, nothing
is rounded, and the tolerance is that of binary floating point. The lemmas say what the operations
of a scalar come to on real numbers.
-/
namespace VectorPaint

/-- The numeral two holds a proof that it is no less than two, which is named here once for all
definitions that halve. -/
instance atLeastTwo : Nat.AtLeastTwo 2 := inferInstance

/-- The same of the numeral ten, for definitions with decimal digits. -/
instance atLeastTen : Nat.AtLeastTwo 10 := inferInstance

noncomputable instance : Scalar ℝ where
  decidableLT := inferInstance
  decidableLE := inferInstance
  ofNat := Nat.cast
  epsilon := 1 / 2 ^ 52
  pi := Real.pi
  isFinite _ := true
  abs := abs
  sqrt := Real.sqrt
  hypot x y := Real.sqrt (x ^ 2 + y ^ 2)
  sin := Real.sin
  cos := Real.cos
  acos := Real.arccos
  floor := Int.floor
  ceil := Int.ceil

namespace Scalar

theorem exact_ofNat (n : ℕ) : (ofNat n : ℝ) = n := rfl

theorem exact_abs (x : ℝ) : abs x = |x| := rfl

theorem exact_hypot (x y : ℝ) : hypot x y = √(x ^ 2 + y ^ 2) := rfl

theorem exact_half : (half : ℝ) = 1 / 2 := by
  change ((1 : ℕ) : ℝ) / ((2 : ℕ) : ℝ) = 1 / 2
  norm_num

theorem exact_least (a b : ℝ) : least a b = min a b := by
  have same : (a == a) = true := beq_self_eq_true a
  unfold least
  rw [if_pos same]
  split
  · rename_i less
    exact (min_eq_right (le_of_lt less)).symm
  · rename_i more
    exact (min_eq_left (not_lt.mp more)).symm

theorem exact_greatest (a b : ℝ) : greatest a b = max a b := by
  have same : (a == a) = true := beq_self_eq_true a
  unfold greatest
  rw [if_pos same]
  split
  · rename_i less
    exact (max_eq_right (le_of_lt less)).symm
  · rename_i more
    exact (max_eq_left (not_lt.mp more)).symm

theorem exact_precedes (a b : ℝ) : precedes a b = true ↔ a ≤ b := by
  simp [precedes]

/-- Pixels are counted from the first one whose center does not lie before a position. -/
theorem pixelFrom_le_iff {position : ℝ} {limit pixel : ℕ} (inside : pixel < limit) :
    pixelFrom position limit ≤ pixel ↔ position ≤ pixel + 1 / 2 := by
  have held : pixelFrom position limit = min ⌈position - 1 / 2⌉.toNat limit := by
    rw [← exact_half]
    rfl
  rw [held, min_le_iff, or_iff_left (not_le.mpr inside), Int.toNat_le, Int.ceil_le,
    sub_le_iff_le_add]
  norm_cast

end Scalar
end VectorPaint
