import VectorPaint.Color.Contrast
import VectorPaint.Proofs.Scalar.Binary32
import VectorPaint.Raster.Canvas

/-!
The alpha of a painted pixel. What shows through a translucent paint is added to it, so the exact
alpha never falls. Each float on the way is off by a small part of its size; together they are off
by far less than the half that is added before the digits after the point are cut off. So no byte of
alpha is lost to rounding, and an alpha that counts as none was none.
-/
namespace VectorPaint

open Binary32

namespace LinearColor

theorem denotes_one : Denotes 1 1 := by
  have read : (1 : Float32).toModel.unpack =
      .finite .positive (2 ^ 23) (-23) (Nat.two_pow_pos 23) := by
    rfl
  exact denotes_of_unpack read ⟨Nat.two_pow_pos 23, by decide, by decide, .inl le_rfl⟩
    (by norm_num)

theorem denotes_half : Denotes 0.5 (1 / 2) := by
  have read : (0.5 : Float32).toModel.unpack =
      .finite .positive (2 ^ 23) (-24) (Nat.two_pow_pos 23) := by
    rfl
  exact denotes_of_unpack read ⟨Nat.two_pow_pos 23, by decide, by decide, .inl le_rfl⟩
    (by norm_num)

theorem denotes_255 : Denotes 255 255 := by
  have read : (255 : Float32).toModel.unpack =
      .finite .positive (255 * 2 ^ 16) (-16) (by decide) := by
    rfl
  exact denotes_of_unpack read ⟨by decide, by decide, by decide, .inl (by decide)⟩ (by norm_num)

theorem denotes_epsilon : Denotes epsilon (1 / 2 ^ 23) := by
  have read : epsilon.toModel.unpack =
      .finite .positive (2 ^ 23) (-46) (Nat.two_pow_pos 23) := by
    rfl
  exact denotes_of_unpack read ⟨Nat.two_pow_pos 23, by decide, by decide, .inl le_rfl⟩
    (by norm_num)

/-- A byte as a part of one, in the real numbers. -/
noncomputable def part (byte : UInt8) : ℝ := byte.toNat / 255

theorem part_nonneg (byte : UInt8) : 0 ≤ part byte := by unfold part; positivity

theorem part_le_one (byte : UInt8) : part byte ≤ 1 := by
  have bound : (byte.toNat : ℝ) ≤ 255 := by exact_mod_cast Nat.le_of_lt_succ byte.toNat_lt
  exact (div_le_one (by norm_num)).mpr bound

/-- All bytes but zero are parts that floats do not take for none. -/
theorem part_eq_zero_or_large (byte : UInt8) : part byte = 0 ∨ 1 / 255 ≤ part byte := by
  unfold part
  rcases byte.toNat.eq_zero_or_pos with zero | positive
  · left
    rw [zero, Nat.cast_zero, zero_div]
  · right
    have one_le : (1 : ℝ) ≤ byte.toNat := Nat.one_le_cast.mpr positive
    gcongr

theorem denotes_ofByte (byte : UInt8) : Denotes (ofByte byte) (rounded (part byte)) := by
  have nonneg := part_nonneg byte
  have le_one := part_le_one byte
  have size : |(byte.toNat / 255 : ℝ)| = part byte := abs_of_nonneg nonneg
  refine (denotes_toFloat32 byte).div denotes_255 (by norm_num) ?_
  rw [size]
  exact le_one.trans_lt (by norm_num)

theorem rounded_part_mem (byte : UInt8) : rounded (part byte) ∈ Set.Icc 0 1 :=
  ⟨rounded_nonneg (part_nonneg byte), rounded_le_one (part_le_one byte)⟩

theorem part_le_rounded_add (byte : UInt8) : part byte ≤ rounded (part byte) + 2 / 2 ^ 25 := by
  have bounds := rounded_bounds 1 (part_nonneg byte) (by linarith [part_le_one byte])
  linarith [bounds.1]

variable {p q x : ℝ}

/-- The alpha of a color of alpha `p` below one of alpha `q`, as it is rounded. -/
noncomputable def blended (p q : ℝ) : ℝ := rounded (q + rounded (p * rounded (1 - q)))

section Blended

variable (p_nonneg : 0 ≤ p) (p_le : p ≤ 1) (q_nonneg : 0 ≤ q) (q_le : q ≤ 1)
include p_nonneg p_le q_nonneg q_le

/-- What is let through is a part of one, and so is what is seen of it. -/
theorem through_mem : rounded (1 - q) ∈ Set.Icc 0 1 ∧
    p * rounded (1 - q) ∈ Set.Icc 0 1 ∧ rounded (p * rounded (1 - q)) ∈ Set.Icc 0 1 := by
  have through_nonneg : 0 ≤ rounded (1 - q) := rounded_nonneg (by linarith)
  have through_le : rounded (1 - q) ≤ 1 := rounded_le_one (by linarith)
  have seen_nonneg : 0 ≤ p * rounded (1 - q) := mul_nonneg p_nonneg through_nonneg
  have seen_le : p * rounded (1 - q) ≤ 1 := mul_le_one₀ p_le through_nonneg through_le
  exact ⟨⟨through_nonneg, through_le⟩, ⟨seen_nonneg, seen_le⟩,
    rounded_nonneg seen_nonneg, rounded_le_one seen_le⟩

theorem blended_nonneg : 0 ≤ blended p q := by
  obtain ⟨-, -, seen⟩ := through_mem p_nonneg p_le q_nonneg q_le
  exact rounded_nonneg (add_nonneg q_nonneg seen.1)

theorem blended_bounds :
    q + rounded (p * rounded (1 - q)) ≤ blended p q + 2 ^ 2 / 2 ^ 25 ∧
      blended p q ≤ q + rounded (p * rounded (1 - q)) + 2 ^ 2 / 2 ^ 25 := by
  obtain ⟨-, -, seen⟩ := through_mem p_nonneg p_le q_nonneg q_le
  exact rounded_bounds 2 (add_nonneg q_nonneg seen.1) (by linarith [seen.2])

theorem blended_lt_three : blended p q < 3 := by
  obtain ⟨-, -, seen⟩ := through_mem p_nonneg p_le q_nonneg q_le
  have sum := blended_bounds p_nonneg p_le q_nonneg q_le
  linarith [sum.2, seen.2]

/-- Rounding takes little of the lower color. -/
theorem le_blended_add : p ≤ blended p q + 8 / 2 ^ 25 := by
  obtain ⟨through, seen, -⟩ := through_mem p_nonneg p_le q_nonneg q_le
  have sum := blended_bounds p_nonneg p_le q_nonneg q_le
  have product := rounded_bounds 1 seen.1 (by linarith [seen.2])
  have rest := rounded_bounds 1 (by linarith : 0 ≤ 1 - q) (by linarith)
  have exact : p * (1 - q - 2 ^ 1 / 2 ^ 25) ≤ p * rounded (1 - q) :=
    mul_le_mul_of_nonneg_left (by linarith [rest.1]) p_nonneg
  have hidden : 0 ≤ q * (1 - p) := mul_nonneg q_nonneg (by linarith)
  linarith [sum.1, product.1]

end Blended

theorem denotes_blend {c top : LinearColor} (low : Denotes c.alpha p) (high : Denotes top.alpha q)
    (p_nonneg : 0 ≤ p) (p_le : p ≤ 1) (q_nonneg : 0 ≤ q) (q_le : q ≤ 1) :
    Denotes (c.blend top).alpha (blended p q) := by
  obtain ⟨through, seen, shown⟩ := through_mem p_nonneg p_le q_nonneg q_le
  have rest := denotes_one.sub high (by
    rw [abs_of_nonneg (by linarith)]
    exact lt_of_le_of_lt (by linarith) (one_lt_pow₀ one_lt_two (by decide)))
  have product := low.mul rest (by
    rw [abs_of_nonneg seen.1]
    exact seen.2.trans_lt (one_lt_pow₀ one_lt_two (by decide)))
  exact high.add product (by
    rw [abs_of_nonneg (add_nonneg q_nonneg shown.1)]
    exact lt_of_le_of_lt (add_le_add q_le shown.2) (by norm_num))

/-- A part that is close below that of a byte, or above it, gives no smaller byte. -/
theorem le_toByte {byte : UInt8} {a : Float32} (denotes : Denotes a x) (nonneg : 0 ≤ x)
    (bounded : x < 3) (near : part byte ≤ x + 10 / 2 ^ 25) : byte ≤ toByte a := by
  have times_nonneg : 0 ≤ x * 255 := by positivity
  have product := rounded_bounds 10 times_nonneg (by linarith)
  have scaled := denotes.mul denotes_255 (by
    rw [abs_of_nonneg times_nonneg]
    linarith)
  have sum_nonneg : 0 ≤ rounded (x * 255) + 1 / 2 :=
    add_nonneg (rounded_nonneg times_nonneg) one_half_pos.le
  have sum := rounded_bounds 11 sum_nonneg (by linarith [product.2])
  have raised := scaled.add denotes_half (by
    rw [abs_of_nonneg sum_nonneg]
    linarith [product.2])
  refine raised.le_toUInt8 ?_
  have byte_eq : (byte.toNat : ℝ) = part byte * 255 := by
    unfold part
    ring
  linarith [sum.1, product.1]

end LinearColor

namespace Rgba

open LinearColor

/-- Blending loses nothing of the alpha below. -/
theorem alpha_le_blend (c top : Rgba) : c.alpha ≤ (c.blend top).alpha := by
  obtain ⟨p_nonneg, p_le⟩ := rounded_part_mem c.alpha
  obtain ⟨q_nonneg, q_le⟩ := rounded_part_mem top.alpha
  have denotes : Denotes ((ofRgba c).blend (ofRgba top)).alpha _ :=
    denotes_blend (denotes_ofByte c.alpha) (denotes_ofByte top.alpha) p_nonneg p_le q_nonneg q_le
  have near : part c.alpha ≤ blended (rounded (part c.alpha)) (rounded (part top.alpha)) +
      10 / 2 ^ 25 := by
    have read := part_le_rounded_add c.alpha
    have kept := le_blended_add p_nonneg p_le q_nonneg q_le
    linarith
  unfold blend toRgba
  split
  · -- Only a byte of zero is as close to none as this.
    rename_i none
    have none := (denotes.le_iff denotes_epsilon).mp none
    rcases part_eq_zero_or_large c.alpha with zero | large
    · have zero : c.alpha.toNat = 0 := by
        unfold part at zero
        exact_mod_cast (div_eq_zero_iff.mp zero).resolve_right (by norm_num)
      rw [UInt8.le_iff_toNat_le, zero]
      exact Nat.zero_le _
    · norm_num at none near large
      linarith
  · simp only
    split
    · exact le_toByte denotes (blended_nonneg p_nonneg p_le q_nonneg q_le)
        (blended_lt_three p_nonneg p_le q_nonneg q_le) near
    · exact le_toByte denotes_one zero_le_one (by norm_num)
        ((part_le_one c.alpha).trans (le_add_of_nonneg_right (by positivity)))

theorem alpha_le_paintedWith (pixel paint : Rgba) :
    pixel.alpha ≤ (pixel.paintedWith paint).alpha := by
  unfold paintedWith
  split
  · exact UInt8.le_refl _
  · split
    · rename_i solid
      rw [beq_iff_eq.mp solid, UInt8.le_iff_toNat_le]
      exact Nat.le_of_lt_succ pixel.alpha.toNat_lt
    · exact alpha_le_blend pixel paint

end Rgba
end VectorPaint
