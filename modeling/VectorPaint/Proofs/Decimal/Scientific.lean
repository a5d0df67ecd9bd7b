import Mathlib
import VectorPaint.Proofs.Decimal.Written

/-!
Scientific notation. The exponent is that of the greatest power of ten that a quotient reaches, and
the digits are its nearest ones, so a text with `places` digits after the point is off by no more
than half a unit of the last one. Numbers with more digits before the point than that are written as
whole ones.
-/
namespace VectorPaint.Decimal

section Rounding

variable {num den : ℕ}

theorem abs_roundHalfEven_sub_le (num : ℕ) (positive : 0 < den) :
    |(roundHalfEven num den : ℝ) - num / den| ≤ 1 / 2 := by
  have divisor : (0 : ℝ) < den := Nat.cast_pos.mpr positive
  have parts : (num : ℝ) = den * (num / den : ℕ) + (num % den : ℕ) := by
    exact_mod_cast (Nat.div_add_mod num den).symm
  have quotient : (num / den : ℝ) = (num / den : ℕ) + (num % den : ℕ) / den := by
    rw [parts]
    field_simp
  have rest := Nat.mod_lt num positive
  have below : ((num % den : ℕ) / den : ℝ) < 1 := (div_lt_one divisor).mpr (Nat.cast_lt.mpr rest)
  have above : (0 : ℝ) ≤ (num % den : ℕ) / den := by positivity
  rw [quotient]
  unfold roundHalfEven
  simp only [Bool.or_eq_true, Bool.and_eq_true, decide_eq_true_iff]
  generalize num % den = r at *
  split
  · rename_i up
    have half : (1 / 2 : ℝ) ≤ r / den := by
      rw [div_le_div_iff₀ two_pos divisor]
      exact_mod_cast (by omega : 1 * den ≤ r * 2)
    push_cast
    rw [abs_le]
    constructor <;> linarith
  · rename_i down
    have half : (r / den : ℝ) ≤ 1 / 2 := by
      rw [div_le_div_iff₀ divisor two_pos]
      exact_mod_cast (by omega : r * 2 ≤ 1 * den)
    rw [abs_le]
    constructor <;> linarith

theorem abs_roundShifted_sub_le (num : ℕ) (positive : 0 < den) (shift : ℤ) :
    |(roundShifted num den shift : ℝ) - num / den * 10 ^ shift| ≤ 1 / 2 := by
  cases shift with
  | ofNat k =>
    have near := abs_roundHalfEven_sub_le (num * 10 ^ k) positive
    rw [Nat.cast_mul, Nat.cast_pow, Nat.cast_ofNat, mul_div_right_comm] at near
    rw [Int.ofNat_eq_natCast, zpow_natCast]
    exact near
  | negSucc k =>
    have scaled : 0 < den * 10 ^ (k + 1) := Nat.mul_pos positive (Nat.pow_pos (by decide))
    have near := abs_roundHalfEven_sub_le num scaled
    rw [Nat.cast_mul, Nat.cast_pow, Nat.cast_ofNat, ← div_div, div_eq_mul_inv (_ / _)] at near
    rw [zpow_negSucc]
    exact near

theorem zpow_ofNat_le_iff (positive : 0 < den) (k : ℕ) :
    (10 : ℝ) ^ Int.ofNat k ≤ num / den ↔ den * tenPow k ≤ num := by
  rw [le_div_iff₀ (Nat.cast_pos.mpr positive), Int.ofNat_eq_natCast, zpow_natCast, mul_comm,
    tenPow_eq]
  exact_mod_cast Iff.rfl

theorem zpow_negSucc_le_iff (positive : 0 < den) (k : ℕ) :
    (10 : ℝ) ^ Int.negSucc k ≤ num / den ↔ den ≤ num * tenPow (k + 1) := by
  rw [le_div_iff₀ (Nat.cast_pos.mpr positive), zpow_negSucc, inv_mul_le_iff₀ (by positivity),
    mul_comm, tenPow_eq]
  exact_mod_cast Iff.rfl

/-- How many digits both numbers have leaves two exponents for their quotient. -/
theorem zpow_digitCounts_bounds (above : 0 < num) (positive : 0 < den) :
    (10 : ℝ) ^ ((digitCount num : ℤ) - digitCount den - 1) ≤ num / den ∧
      (num / den : ℝ) < 10 ^ ((digitCount num : ℤ) - digitCount den + 1) := by
  obtain ⟨low, high⟩ := zpow_digitCount_bounds above 0
  obtain ⟨low', high'⟩ := zpow_digitCount_bounds positive 0
  rw [zpow_zero, mul_one, add_zero] at low high low' high'
  have divisor : (0 : ℝ) < den := Nat.cast_pos.mpr positive
  constructor
  · rw [le_div_iff₀ divisor]
    calc (10 : ℝ) ^ ((digitCount num : ℤ) - digitCount den - 1) * den
        ≤ 10 ^ ((digitCount num : ℤ) - digitCount den - 1) * 10 ^ (digitCount den : ℤ) := by
          gcongr
      _ = 10 ^ ((digitCount num : ℤ) - 1) := by
          rw [← zpow_add₀ (by norm_num)]
          congr 1
          ring
      _ ≤ num := low
  · rw [div_lt_iff₀ divisor]
    calc (num : ℝ) < 10 ^ (digitCount num : ℤ) := high
      _ = 10 ^ ((digitCount num : ℤ) - digitCount den + 1) * 10 ^ ((digitCount den : ℤ) - 1) := by
          rw [← zpow_add₀ (by norm_num)]
          congr 1
          ring
      _ ≤ 10 ^ ((digitCount num : ℤ) - digitCount den + 1) * den := by gcongr

/-- One comparison tells which of the two exponents it is. -/
theorem leadingExponent_bounds (above : 0 < num) (positive : 0 < den) :
    (10 : ℝ) ^ leadingExponent num den ≤ num / den ∧
      (num / den : ℝ) < 10 ^ (leadingExponent num den + 1) := by
  obtain ⟨least, most⟩ := zpow_digitCounts_bounds above positive
  unfold leadingExponent
  simp only [Int.ofNat_eq_natCast]
  generalize (digitCount num : ℤ) - digitCount den = e at *
  have choose (reached : Bool) (told : reached = true ↔ (10 : ℝ) ^ e ≤ num / den) :
      (10 : ℝ) ^ (if reached then e else e - 1) ≤ num / den ∧
        (num / den : ℝ) < 10 ^ ((if reached then e else e - 1) + 1) := by
    split
    · rename_i up
      exact ⟨told.mp up, most⟩
    · rename_i down
      rw [sub_add_cancel]
      exact ⟨least, not_le.mp (mt told.mpr down)⟩
  -- the comparison itself is one of whole numbers, and which one depends on the sign of `e`
  apply choose
  cases e with
  | ofNat k => exact decide_eq_true_iff.trans (zpow_ofNat_le_iff positive k).symm
  | negSucc k => exact decide_eq_true_iff.trans (zpow_negSucc_le_iff positive k).symm

end Rounding

section Scientific

variable {places num den : ℕ}

/-- The number that is written for a quotient. -/
noncomputable def scientificValue (places num den : ℕ) : ℝ :=
  roundShifted num den (places - leadingExponent num den) / 10 ^ places *
    10 ^ leadingExponent num den

/-- A carry into a further digit is written with the next exponent, which is the same number. -/
theorem spells_scientificText (some_place : 0 < places) (above : 0 < num) (negative : Bool) :
    Spells (withSign negative (scientificText places num den))
      (Binary64.signOf negative * scientificValue places num den) := by
  unfold scientificText scientificValue
  simp only [if_neg above.ne', Int.ofNat_eq_natCast]
  generalize leadingExponent num den = e
  generalize roundShifted num den (places - e) = n
  split
  · rename_i carry
    have spells :=
      (positional_fixedText some_place (10 ^ places)).spells_scientific negative (e + 1)
    have value :
        (((10 ^ places : ℕ) : ℝ) / 10 ^ places * 10 ^ (e + 1)) = n / 10 ^ places * 10 ^ e := by
      rw [carry, tenPow_eq, zpow_add_one₀ (by norm_num)]
      push_cast
      rw [pow_succ]
      field_simp
    rwa [value] at spells
  · exact (positional_fixedText some_place n).spells_scientific negative e

/-- Half a unit of the last place, as a part of the quotient. -/
theorem abs_scientificValue_sub_le (above : 0 < num) (positive : 0 < den) (places : ℕ) :
    |scientificValue places num den - num / den| ≤ num / den / (2 * 10 ^ places) := by
  obtain ⟨least, -⟩ := leadingExponent_bounds above positive
  have near := abs_roundShifted_sub_le num positive (places - leadingExponent num den)
  unfold scientificValue
  generalize leadingExponent num den = e at *
  generalize (roundShifted num den (places - e) : ℝ) = n at near
  have scale : (0 : ℝ) < 10 ^ e / 10 ^ places := by positivity
  have apart : n / 10 ^ places * 10 ^ e - num / den =
      (n - num / den * 10 ^ (places - e : ℤ)) * (10 ^ e / 10 ^ places) := by
    rw [zpow_sub₀ (by norm_num), zpow_natCast]
    field_simp
  calc |n / 10 ^ places * 10 ^ e - num / den|
      = |n - num / den * 10 ^ (places - e : ℤ)| * (10 ^ e / 10 ^ places) := by
        rw [apart, abs_mul, abs_of_pos scale]
    _ ≤ 1 / 2 * (num / den / 10 ^ places) := by gcongr
    _ = num / den / (2 * 10 ^ places) := by
        field_simp

/-- With that many digits before the point there are none after it. -/
theorem exists_natCast_eq_scientificValue (places : ℕ) (above : 0 < num) (positive : 0 < den)
    (great : (10 : ℝ) ^ places ≤ num / den) : ∃ m : ℕ, scientificValue places num den = m := by
  obtain ⟨-, most⟩ := leadingExponent_bounds above positive
  have order : (places : ℤ) < leadingExponent num den + 1 := by
    rw [← zpow_lt_zpow_iff_right₀ (by norm_num : (1 : ℝ) < 10), zpow_natCast]
    exact great.trans_lt most
  unfold scientificValue
  obtain ⟨k, shift⟩ := Int.eq_ofNat_of_zero_le
    (by omega : 0 ≤ leadingExponent num den - places)
  generalize leadingExponent num den = e at *
  refine ⟨roundShifted num den (places - e) * 10 ^ k, ?_⟩
  rw [show e = places + k by omega, zpow_add₀ (by norm_num), zpow_natCast, zpow_natCast]
  push_cast
  field_simp

end Scientific

end VectorPaint.Decimal
