import Mathlib
import VectorPaint.Proofs.Decimal.Spelling
import VectorPaint.Proofs.Scalar.Denoted
import VectorPaint.Proofs.Scalar.Exact

/-!
What written numbers stand for. A number is its digits, taken as one whole number, times a power of
ten. What is read is the float nearest to it: numbers that are settled by their decimal size alone
are indeed too great or too small to be stored.
-/
namespace VectorPaint.Decimal

open Binary64 (Denotes Stores rounded stored signOf)
open Float.Model (Format)

section Size

/-- How many digits there are tells between which powers of ten a number lies. -/
theorem pow_digitCount_bounds {n : ℕ} (positive : 0 < n) :
    10 ^ (digitCount n - 1) ≤ n ∧ n < 10 ^ digitCount n ∧ 0 < digitCount n := by
  have digits : 0 < digitCount n := Nat.length_toDigits_pos
  refine ⟨?_, (Nat.length_toDigits_le_iff (by decide) digits).mp le_rfl, digits⟩
  rcases (digitCount n - 1).eq_zero_or_pos with one | more
  · rw [one, pow_zero]
    exact positive
  · by_contra! below
    have shorter : digitCount n ≤ digitCount n - 1 :=
      (Nat.length_toDigits_le_iff (by decide) more).mpr below
    omega

/-- The same of a number that is multiplied by a power of ten. -/
theorem zpow_digitCount_bounds {n : ℕ} (positive : 0 < n) (e : ℤ) :
    (10 : ℝ) ^ (digitCount n + e - 1) ≤ n * 10 ^ e ∧
      (n * 10 ^ e : ℝ) < 10 ^ (digitCount n + e) := by
  obtain ⟨low, high, digits⟩ := pow_digitCount_bounds positive
  have scale : (0 : ℝ) < 10 ^ e := by positivity
  constructor
  · have exponent : (digitCount n + e - 1 : ℤ) = ((digitCount n - 1 : ℕ) : ℤ) + e := by omega
    rw [exponent, zpow_add₀ (by norm_num), zpow_natCast]
    exact mul_le_mul_of_nonneg_right (by exact_mod_cast low) scale.le
  · rw [zpow_add₀ (by norm_num), zpow_natCast]
    exact mul_lt_mul_of_pos_right (by exact_mod_cast high) scale

theorem digitCount_le_log2 {n : ℕ} (positive : 0 < n) : digitCount n ≤ n.log2 + 1 := by
  obtain ⟨low, -, -⟩ := pow_digitCount_bounds positive
  have less : 2 ^ (digitCount n - 1) ≤ n :=
    (Nat.pow_le_pow_left (by decide) _).trans low
  have := (Nat.le_log2 positive.ne').mpr less
  omega

end Size

section Range

/-- Numbers of this size are too great to be stored. -/
theorem stored_of_great {x : ℝ} (great : 10 ^ (310 : ℤ) ≤ x) : stored x = ⊤ := by
  have fits : Rounding.Fits Format.binary64 (2 ^ 52) 972 :=
    ⟨by positivity, by decide, by decide, .inl le_rfl⟩
  have power : (((2 ^ 52 : ℕ) : ℝ) * 2 ^ (972 : ℤ)) = 2 ^ 1024 := by
    rw [Nat.cast_pow, Nat.cast_ofNat, ← zpow_natCast, ← zpow_natCast, ← zpow_add₀ two_ne_zero]
    rfl
  have kept : rounded (2 ^ 1024) = 2 ^ 1024 := by
    have magnitude := fits.magnitude_eq
    rw [power] at magnitude
    exact (if_neg (not_lt.mpr (by positivity))).trans magnitude
  have beyond : (2 : ℝ) ^ 1024 ≤ 10 ^ (310 : ℤ) := by
    exact_mod_cast (by decide +kernel : 2 ^ 1024 ≤ 10 ^ 310)
  exact Rounding.overflow_of_le (kept.symm.trans_le (Binary64.rounded_mono (beyond.trans great)))

/-- Numbers of this size are too small to be told from zero. -/
theorem stored_of_small {x : ℝ} (nonneg : 0 ≤ x) (small : x < 2 ^ (-1075 : ℤ)) : stored x = 0 := by
  have unit : (-1074 : ℤ) ≤ Rounding.unitExponent Format.binary64 x := le_max_right ..
  have scale := Rounding.unit_pos Format.binary64 x
  have half : x / 2 ^ Rounding.unitExponent Format.binary64 x < 1 / 2 := by
    rw [div_lt_iff₀ scale]
    calc x < 2 ^ (-1075 : ℤ) := small
      _ = 1 / 2 * 2 ^ (-1074 : ℤ) := by
        rw [show (-1075 : ℤ) = -1074 - 1 by norm_num, zpow_sub_one₀ two_ne_zero]
        ring
      _ ≤ 1 / 2 * 2 ^ Rounding.unitExponent Format.binary64 x := by
        gcongr
        exact one_le_two
  have units : 0 ≤ x / 2 ^ Rounding.unitExponent Format.binary64 x := div_nonneg nonneg scale.le
  have floor : ⌊x / 2 ^ Rounding.unitExponent Format.binary64 x⌋ = 0 :=
    Int.floor_eq_zero_iff.mpr ⟨units, half.trans (by norm_num)⟩
  have none : nearest (x / 2 ^ Rounding.unitExponent Format.binary64 x) = 0 := by
    have below : Int.fract (x / 2 ^ Rounding.unitExponent Format.binary64 x) < 1 / 2 := by
      rwa [Int.fract, floor, Int.cast_zero, sub_zero]
    rw [nearest, if_pos below, floor]
  have zero : rounded x = 0 := by
    rw [rounded, Rounding.rounded, if_neg (not_lt.mpr nonneg), Rounding.magnitude, none,
      Int.cast_zero, zero_mul]
  rw [stored, zero, ← Binary64.rounded_zero]
  exact Binary64.denotes_zero.stored_eq

end Range

namespace Numeral

/-- The number that is written. -/
noncomputable def exact (n : Numeral) : ℝ :=
  signOf n.negative *
    (digitsValue (n.whole ++ n.fraction) * 10 ^ (n.exponent - n.fraction.length))

theorem stores_nearest (n : ℕ) (e : ℤ) : Stores (nearest n e) (n * 10 ^ e) := by
  unfold nearest
  split
  · rename_i zero
    rw [zero, Nat.cast_zero, zero_mul]
    exact Binary64.denotes_zero.stores
  · rename_i nonzero
    have positive := Nat.pos_of_ne_zero nonzero
    obtain ⟨low, high⟩ := zpow_digitCount_bounds positive e
    simp only [Int.ofNat_eq_natCast]
    split_ifs with great small
    · have infinite : (1 / 0 : Float).toModel.unpack = .infinity .positive := by rfl
      refine ⟨?_, ?_⟩
      · rw [Binary64.Determinate, infinite]
        exact Float.Model.UnpackedFloat.noConfusion
      · rw [Binary64.number, infinite, stored_of_great]
        · rfl
        · refine le_trans (zpow_le_zpow_right₀ (by norm_num) ?_) low
          omega
    · have least : (n * 10 ^ e : ℝ) < 2 ^ (-1075 : ℤ) := by
        calc (n * 10 ^ e : ℝ) < 10 ^ (digitCount n + e) := high
          _ ≤ 10 ^ (-331 : ℤ) := zpow_le_zpow_right₀ (by norm_num) (by omega)
          _ ≤ 2 ^ (-1075 : ℤ) := by
            have powers : (2 : ℝ) ^ 1075 ≤ 10 ^ 331 := by
              exact_mod_cast (by decide +kernel : 2 ^ 1075 ≤ 10 ^ 331)
            rw [zpow_neg, zpow_neg]
            exact inv_anti₀ (by positivity) (by exact_mod_cast powers)
      have zero := Binary64.denotes_zero
      refine ⟨zero.determinate, ?_⟩
      rw [zero.number_eq, stored_of_small (by positivity) least, EReal.coe_zero]
    · have digits := digitCount_le_log2 positive
      apply Binary64.stores_ofScientific <;> omega

/-- What is read is the float nearest to the number that is written. -/
theorem stores_value (n : Numeral) : Stores n.value n.exact := by
  have stores := stores_nearest (digitsValue (n.whole ++ n.fraction))
    (n.exponent - n.fraction.length)
  unfold value exact signOf
  split
  · rw [neg_one_mul]
    exact stores.neg
  · rw [one_mul]
    exact stores

end Numeral
end VectorPaint.Decimal
