import VectorPaint.Proofs.Scalar.Arithmetic

/-!
Binary floating point of 32 bits over the real numbers. A finite float denotes a number, and the
float of a sum, a difference, a product or a quotient denotes the rounded one as long as the exact
one is not too great. Below a power of two rounding moves a number by no more than a fixed part of
that power.
-/
namespace VectorPaint.Binary32

open Float.Model Float.Model.UnpackedFloat

/-- The nearest number with 24 bits. -/
noncomputable def rounded (x : ℝ) : ℝ := Rounding.rounded Format.binary32 x

variable {a b : Float32} {x y : ℝ}

theorem abs_rounded_sub_le (k : ℕ) (small : |x| < 2 ^ k) : |rounded x - x| ≤ 2 ^ k / 2 ^ 25 := by
  have room : Format.binary32.minExponent + Format.binary32.mantissaBits ≤ k := by
    change -149 + 24 ≤ (k : ℤ)
    omega
  have near := Rounding.abs_rounded_sub_le (by exact_mod_cast small) room
  have unit : (2 : ℝ) ^ ((k : ℤ) - Format.binary32.mantissaBits - 1) = 2 ^ k / 2 ^ 25 := by
    change (2 : ℝ) ^ ((k : ℤ) - 24 - 1) = _
    rw [sub_sub, zpow_sub₀ two_ne_zero, zpow_natCast]
    norm_num
  rwa [unit] at near

/-- Rounding moves a number that is not negative only a little, up or down. -/
theorem rounded_bounds (k : ℕ) (nonneg : 0 ≤ x) (small : x < 2 ^ k) :
    x ≤ rounded x + 2 ^ k / 2 ^ 25 ∧ rounded x ≤ x + 2 ^ k / 2 ^ 25 := by
  rw [← abs_of_nonneg nonneg] at small
  have near := abs_le.mp (abs_rounded_sub_le k small)
  constructor <;> linarith [near.1, near.2]

theorem rounded_nonneg (nonneg : 0 ≤ x) : 0 ≤ rounded x := Rounding.rounded_nonneg nonneg

theorem rounded_le_one (le : x ≤ 1) : rounded x ≤ 1 := by
  have bound := Rounding.rounded_le_natCast (S := Format.binary32) (x := x) (n := 1)
    (Nat.one_lt_two_pow (by decide)) (by exact_mod_cast le)
  exact_mod_cast bound

/-- The float is finite and stands for the number. -/
structure Denotes (a : Float32) (x : ℝ) : Prop where
  finite : Rounding.Finite Format.binary32 a.toModel.unpack
  real_eq : Rounding.real a.toModel.unpack = x

private theorem room : Format.binary32.minExponent ≤ Rounding.greatestExponent Format.binary32 := by
  decide

theorem denotes_pack {u : UnpackedFloat} (finite : Rounding.Finite Format.binary32 u)
    (small : |Rounding.real u| < 2 ^ 128) :
    Denotes (.ofModel (.pack u)) (Rounding.real u) := by
  have kept : (Float32.ofModel (.pack u)).toModel.unpack = u :=
    Rounding.unpack_pack_of_lt room finite small
  constructor
  · rwa [kept]
  · rw [kept]

/-- A rounded number is stored, unless it is too great. -/
theorem denotes_rounded {u : UnpackedFloat}
    (spec : Rounding.Finite Format.binary32 u ∧ Rounding.real u = rounded x)
    (small : |x| < 2 ^ 127) : Denotes (.ofModel (.pack u)) (rounded x) := by
  obtain ⟨finite, real_eq⟩ := spec
  have bound : |rounded x| < 2 ^ ((127 : ℤ) + 1) :=
    Rounding.abs_rounded_lt (by exact_mod_cast small) (by decide)
  rw [← real_eq] at bound ⊢
  exact denotes_pack finite (by exact_mod_cast bound)

namespace Denotes

/-- What an operation makes of two floats, if its result is the exact one with one rounding. -/
private theorem operate {u : UnpackedFloat} (exact : ℝ → ℝ → ℝ) (first : Denotes a x)
    (second : Denotes b y)
    (spec : Rounding.Finite Format.binary32 u ∧ Rounding.real u =
      rounded (exact (Rounding.real a.toModel.unpack) (Rounding.real b.toModel.unpack)))
    (small : |exact x y| < 2 ^ 127) : Denotes (.ofModel (.pack u)) (rounded (exact x y)) := by
  rw [first.real_eq, second.real_eq] at spec
  exact denotes_rounded spec small

theorem add (first : Denotes a x) (second : Denotes b y) (small : |x + y| < 2 ^ 127) :
    Denotes (a + b) (rounded (x + y)) :=
  operate (· + ·) first second (Rounding.add_spec first.finite second.finite) small

theorem sub (first : Denotes a x) (second : Denotes b y) (small : |x - y| < 2 ^ 127) :
    Denotes (a - b) (rounded (x - y)) :=
  operate (· - ·) first second (Rounding.sub_spec first.finite second.finite) small

theorem mul (first : Denotes a x) (second : Denotes b y) (small : |x * y| < 2 ^ 127) :
    Denotes (a * b) (rounded (x * y)) :=
  operate (· * ·) first second (Rounding.mul_spec first.finite second.finite) small

theorem div (first : Denotes a x) (second : Denotes b y) (divisor : y ≠ 0)
    (small : |x / y| < 2 ^ 127) : Denotes (a / b) (rounded (x / y)) :=
  operate (· / ·) first second
    (Rounding.div_spec first.finite second.finite (second.real_eq ▸ divisor)) small

theorem le_iff (first : Denotes a x) (second : Denotes b y) : a ≤ b ↔ x ≤ y := by
  have models : a ≤ b ↔ UnpackedFloat.le a.toModel.unpack b.toModel.unpack := by
    change decide (a.toModel ≤ b.toModel) = true ↔ _
    rw [decide_eq_true_iff]
    rfl
  rw [models, Rounding.le_iff_real first.finite second.finite, first.real_eq, second.real_eq]

/-- Digits after the point are cut off, and what does not fit into a byte gives the greatest one. -/
theorem toUInt8_eq (denotes : Denotes a x) (nonneg : 0 ≤ x) :
    a.toUInt8 = UInt8.ofNatClamp ⌊x⌋₊ := by
  have whole := Rounding.toInt_of_nonneg denotes.finite (denotes.real_eq.symm ▸ nonneg) 0
    (UInt8.size - 1)
  rw [denotes.real_eq] at whole
  have model : a.toUInt8 = UInt8.ofNatClamp
    (a.toModel.unpack.toInt 0 (UInt8.size - 1)).toNat := rfl
  rw [model, whole, Int.floor_toNat]

/-- A byte that is not above the number is not above what is left of it. -/
theorem le_toUInt8 (denotes : Denotes a x) {byte : UInt8} (le : byte.toNat ≤ x) :
    byte ≤ a.toUInt8 := by
  rw [denotes.toUInt8_eq (byte.toNat.cast_nonneg.trans le), UInt8.le_iff_toNat_le]
  have floor : byte.toNat ≤ ⌊x⌋₊ := Nat.le_floor le
  have byte_lt := byte.toNat_lt
  unfold UInt8.ofNatClamp
  split
  · rename_i fits
    exact floor
  · exact Nat.le_of_lt_succ byte_lt

end Denotes

theorem denotes_toFloat32 (byte : UInt8) : Denotes byte.toFloat32 byte.toNat := by
  have byte_lt := byte.toNat_lt
  have spec := Rounding.normalize_spec (S := Format.binary32) byte.toNat 0 .positive
  rw [zpow_zero, mul_one, Int.cast_natCast] at spec
  have exact : Rounding.rounded Format.binary32 byte.toNat = byte.toNat :=
    Rounding.rounded_natCast (byte_lt.trans (by decide))
  have small : |(byte.toNat : ℝ)| < 2 ^ 127 := by
    rw [abs_of_nonneg byte.toNat.cast_nonneg]
    exact_mod_cast byte_lt.trans (by decide)
  have denotes := denotes_rounded spec small
  rwa [rounded, exact] at denotes

theorem denotes_of_unpack {mantissa : ℕ} {e : ℤ} {positive : 0 < mantissa}
    (read : a.toModel.unpack = .finite .positive mantissa e positive)
    (fits : Rounding.Fits Format.binary32 mantissa e) (value : mantissa * 2 ^ e = x) :
    Denotes a x := by
  constructor
  · rw [read]
    exact fits
  · rw [read]
    exact value

end VectorPaint.Binary32
