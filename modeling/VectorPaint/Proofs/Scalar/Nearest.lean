import VectorPaint.Proofs.Scalar.Exact

/-!
Rounding of real numbers to a floating format. The numbers of a format are the multiples of a unit
that grows with the size of the number and has a least value. A number is rounded to the nearest
multiple of its unit, and of two equally near ones to the even one. The exponent has no upper bound
here. Rounding keeps the order: where the unit grows, all roundings stay on their side of a power
of two.
-/
namespace VectorPaint

open Float.Model

/-- The nearest whole number; of two equally near ones the even one. -/
noncomputable def nearest (x : ℝ) : ℤ :=
  if Int.fract x < 1 / 2 then ⌊x⌋
  else if 1 / 2 < Int.fract x then ⌊x⌋ + 1
  else ⌊x⌋ + ⌊x⌋ % 2

theorem floor_le_nearest (x : ℝ) : ⌊x⌋ ≤ nearest x := by
  unfold nearest
  split_ifs <;> omega

theorem nearest_le_floor_add_one (x : ℝ) : nearest x ≤ ⌊x⌋ + 1 := by
  unfold nearest
  split_ifs <;> omega

@[simp] theorem nearest_intCast (n : ℤ) : nearest n = n := by
  unfold nearest
  rw [Int.fract_intCast, if_pos one_half_pos, Int.floor_intCast]

theorem nearest_mono : Monotone nearest := by
  intro x y le
  rcases (Int.floor_mono le).lt_or_eq with below | same
  · calc nearest x ≤ ⌊x⌋ + 1 := nearest_le_floor_add_one x
      _ ≤ ⌊y⌋ := below
      _ ≤ nearest y := floor_le_nearest y
  · have fract : Int.fract x ≤ Int.fract y := by
      simp only [Int.fract, same]
      exact sub_le_sub_right le _
    unfold nearest
    rw [same]
    split_ifs <;> first | omega | linarith

theorem nearest_nonneg {x : ℝ} (nonneg : 0 ≤ x) : 0 ≤ nearest x :=
  (Int.floor_nonneg.mpr nonneg).trans (floor_le_nearest x)

namespace Rounding

variable {S : Format} {x y : ℝ}

/-- The exponent of the unit of a number. -/
noncomputable def unitExponent (S : Format) (x : ℝ) : ℤ :=
  max (Int.log 2 x + 1 - S.mantissaBits) S.minExponent

/-- Rounds a number that is not negative. -/
noncomputable def magnitude (S : Format) (x : ℝ) : ℝ :=
  nearest (x / 2 ^ unitExponent S x) * 2 ^ unitExponent S x

/-- Rounds a number; the sign makes no difference. -/
noncomputable def rounded (S : Format) (x : ℝ) : ℝ :=
  if x < 0 then -magnitude S (-x) else magnitude S x

theorem magnitude_nonneg (nonneg : 0 ≤ x) : 0 ≤ magnitude S x := by
  have multiple := nearest_nonneg (div_nonneg nonneg (zpow_nonneg zero_le_two (unitExponent S x)))
  exact mul_nonneg (Int.cast_nonneg multiple) (zpow_nonneg zero_le_two _)

theorem magnitude_zero (S : Format) : magnitude S 0 = 0 := by
  rw [magnitude, zero_div, ← Int.cast_zero, nearest_intCast, Int.cast_zero, zero_mul]

theorem unit_pos (S : Format) (x : ℝ) : (0 : ℝ) < 2 ^ unitExponent S x :=
  zpow_pos zero_lt_two _

theorem lt_units (S : Format) (x : ℝ) : x / 2 ^ unitExponent S x < 2 ^ S.mantissaBits := by
  have least : Int.log 2 x + 1 ≤ S.mantissaBits + unitExponent S x := by
    have := le_max_left (Int.log 2 x + 1 - S.mantissaBits) S.minExponent
    unfold unitExponent
    omega
  rw [div_lt_iff₀ (unit_pos S x), ← zpow_natCast, ← zpow_add₀ two_ne_zero]
  exact (Int.lt_zpow_succ_log_self one_lt_two x).trans_le (zpow_le_zpow_right₀ one_le_two least)

/-- Rounding does not lead beyond the next power of two. -/
theorem nearest_units_le (S : Format) (x : ℝ) :
    nearest (x / 2 ^ unitExponent S x) ≤ 2 ^ S.mantissaBits := by
  have bound := nearest_mono (lt_units S x).le
  rwa [show ((2 : ℝ) ^ S.mantissaBits) = ((2 ^ S.mantissaBits : ℤ) : ℝ) by push_cast; rfl,
    nearest_intCast] at bound

/-- A unit above the least one is the unit of a number with all bits. -/
theorem le_nearest_units (positive : 0 < x) (above : S.minExponent < unitExponent S x) :
    2 ^ S.mantissaBitsWithoutImplicit ≤ nearest (x / 2 ^ unitExponent S x) := by
  have unit : unitExponent S x + S.mantissaBitsWithoutImplicit = Int.log 2 x := by
    unfold unitExponent Format.mantissaBits at *
    omega
  have all : (2 : ℝ) ^ S.mantissaBitsWithoutImplicit ≤ x / 2 ^ unitExponent S x := by
    rw [le_div_iff₀ (unit_pos S x), ← zpow_natCast, ← zpow_add₀ two_ne_zero, add_comm, unit]
    exact Int.zpow_log_le_self one_lt_two positive
  have bound := nearest_mono all
  rwa [show ((2 : ℝ) ^ S.mantissaBitsWithoutImplicit) =
    ((2 ^ S.mantissaBitsWithoutImplicit : ℤ) : ℝ) by push_cast; rfl, nearest_intCast] at bound

theorem magnitude_mono (nonneg : 0 ≤ x) (le : x ≤ y) : magnitude S x ≤ magnitude S y := by
  rcases nonneg.eq_or_lt with rfl | positive
  · rw [magnitude_zero]
    exact magnitude_nonneg le
  have unit : unitExponent S x ≤ unitExponent S y := by
    have log := Int.log_mono_right (b := 2) positive le
    unfold unitExponent
    omega
  rcases unit.eq_or_lt with same | below
  · unfold magnitude
    rw [same]
    gcongr
    exact nearest_mono (div_le_div_of_nonneg_right le (unit_pos S y).le)
  · -- The units differ, so a power of two lies between the two roundings.
    have above : S.minExponent < unitExponent S y := (le_max_right ..).trans_lt below
    calc magnitude S x
        ≤ 2 ^ S.mantissaBits * 2 ^ unitExponent S x := by
          unfold magnitude
          gcongr
          exact_mod_cast nearest_units_le S x
      _ = 2 ^ S.mantissaBitsWithoutImplicit * 2 ^ (unitExponent S x + 1) := by
          rw [Format.mantissaBits, pow_add, zpow_add₀ two_ne_zero]
          ring
      _ ≤ 2 ^ S.mantissaBitsWithoutImplicit * 2 ^ unitExponent S y := by
          gcongr
          · exact one_le_two
          · exact below
      _ ≤ magnitude S y := by
          unfold magnitude
          gcongr
          exact_mod_cast le_nearest_units (positive.trans_le le) above

theorem rounded_mono (S : Format) : Monotone (rounded S) := by
  intro x y le
  unfold rounded
  split_ifs with first second
  · exact neg_le_neg (magnitude_mono (neg_pos.mpr second).le (neg_le_neg le))
  · exact (neg_nonpos.mpr (magnitude_nonneg (neg_pos.mpr first).le)).trans
      (magnitude_nonneg (not_lt.mp second))
  · rename_i second
    exact absurd (le.trans_lt second) first
  · exact magnitude_mono (not_lt.mp first) le

theorem log_mul_zpow (positive : 0 < x) (e : ℤ) : Int.log 2 (x * 2 ^ e) = Int.log 2 x + e := by
  have factor : (0 : ℝ) < 2 ^ e := zpow_pos zero_lt_two e
  have scaled : 0 < x * 2 ^ e := mul_pos positive factor
  apply le_antisymm
  · rw [← Int.lt_add_one_iff, ← Int.lt_zpow_iff_log_lt one_lt_two scaled, Nat.cast_ofNat,
      add_right_comm, zpow_add₀ two_ne_zero, mul_lt_mul_iff_left₀ factor]
    exact Int.lt_zpow_succ_log_self one_lt_two x
  · rw [← Int.zpow_le_iff_le_log one_lt_two scaled, Nat.cast_ofNat, zpow_add₀ two_ne_zero,
      mul_le_mul_iff_left₀ factor]
    exact Int.zpow_log_le_self one_lt_two positive

/-- The exponent that a mantissa with a rest below one is shifted to is that of its unit. -/
theorem targetExponent_eq {mantissa : ℕ} (positive : 0 < mantissa) (low : mantissa ≤ x)
    (high : x < mantissa + 1) (e : ℤ) :
    S.targetExponent (totalExponent mantissa e) = unitExponent S (x * 2 ^ e) := by
  have one : 1 ≤ x := (Nat.one_le_cast.mpr positive).trans low
  have floor : ⌊x⌋₊ = mantissa := (Nat.floor_eq_iff (zero_le_one.trans one)).mpr ⟨low, high⟩
  have log : Int.log 2 x = mantissa.log2 := by
    rw [Int.log_of_one_le_right _ one, floor, Nat.log2_eq_log_two]
  rw [unitExponent, log_mul_zpow (zero_lt_one.trans_le one), log]
  unfold Format.targetExponent totalExponent
  congr 2
  ring

/-- A mantissa and an exponent as a format has them: without spare bits, and with all bits unless
the exponent is the least one. -/
structure Fits (S : Format) (mantissa : ℕ) (e : ℤ) : Prop where
  positive : 0 < mantissa
  bounded : mantissa < 2 ^ S.mantissaBits
  least : S.minExponent ≤ e
  full : 2 ^ S.mantissaBitsWithoutImplicit ≤ mantissa ∨ e = S.minExponent

namespace Fits

variable {mantissa : ℕ} {e : ℤ}

theorem targetExponent_eq (fits : Fits S mantissa e) :
    S.targetExponent (totalExponent mantissa e) = e := by
  have high : mantissa.log2 < S.mantissaBits := (Nat.log2_lt fits.positive.ne').mpr fits.bounded
  have least := fits.least
  unfold Format.targetExponent totalExponent
  rcases fits.full with full | minimal
  · have low : S.mantissaBitsWithoutImplicit ≤ mantissa.log2 :=
      (Nat.le_log2 fits.positive.ne').mpr full
    unfold Format.mantissaBits at *
    omega
  · omega

/-- The numbers of a format are not changed by rounding. -/
theorem magnitude_eq (fits : Fits S mantissa e) :
    magnitude S (mantissa * 2 ^ e) = mantissa * 2 ^ e := by
  have unit : unitExponent S (mantissa * 2 ^ e) = e := by
    rw [← Rounding.targetExponent_eq fits.positive le_rfl (lt_add_one _), fits.targetExponent_eq]
  rw [magnitude, unit, mul_div_cancel_right₀ _ (zpow_pos zero_lt_two e).ne', ← Int.cast_natCast,
    nearest_intCast]

end Fits

end Rounding
end VectorPaint
