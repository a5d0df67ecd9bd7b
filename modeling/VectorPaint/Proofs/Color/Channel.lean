import Mathlib
import VectorPaint.Color.Notation
import VectorPaint.Proofs.Scalar.Denoted

/-!
The bytes of the arguments of a color function. Each is the number of the argument, held within its
range and rounded to the nearest whole number. Numbers beyond the range, however great, give its
ends. A percentage is multiplied by a factor that is a little too small, and what is computed is
rounded to a float, so the byte can be wrong where the exact number is about a half; elsewhere it is
right.
-/
namespace VectorPaint.Rgba

open Binary64 (Denotes Stores rounded number saturate roundAway)

variable {v : Float} {x y z e d high : ℝ}

/-- The number nearest to `x` between zero and `high`. -/
noncomputable def held (high x : ℝ) : ℝ := max 0 (min x high)

section Held

theorem held_nonneg (high x : ℝ) : 0 ≤ held high x := le_max_left 0 _

theorem held_le (nonneg : 0 ≤ high) (x : ℝ) : held high x ≤ high :=
  max_le nonneg (min_le_right x high)

theorem held_of_le (nonneg : 0 ≤ high) (le : high ≤ x) : held high x = high := by
  rw [held, min_eq_right le, max_eq_right nonneg]

theorem held_of_nonpos (nonneg : 0 ≤ high) (le : x ≤ 0) : held high x = 0 := by
  rw [held, min_eq_left (le.trans nonneg), max_eq_left le]

/-- Holding numbers within a range does not take them further apart. -/
theorem abs_held_sub_le (high x y : ℝ) : |held high x - held high y| ≤ |x - y| := by
  have lower := abs_max_sub_max_le_max 0 (min x high) 0 (min y high)
  have upper := abs_min_sub_min_le_max x high y high
  rw [sub_self, abs_zero, max_eq_right (abs_nonneg (min x high - min y high))] at lower
  rw [sub_self, abs_zero, max_eq_left (abs_nonneg (x - y))] at upper
  exact lower.trans upper

/-- The whole number nearest to a number of a byte is a byte. -/
theorem round_mem_byte (nonneg : 0 ≤ y) (le : y ≤ 255) : 0 ≤ round y ∧ round y ≤ 255 := by
  rw [round_eq]
  constructor
  · exact Int.floor_nonneg.mpr (by linarith)
  · exact Int.lt_add_one_iff.mp (Int.floor_lt.mpr (by push_cast; linarith))

/-- Numbers on the same side of every half have the same nearest whole number. -/
theorem round_eq_of_near (near : |y - e| ≤ d) (clear : ∀ k : ℤ, d < |e - (k + 1 / 2)|) :
    round y = round e := by
  obtain ⟨low, high⟩ := round_eq_iff.mp (rfl : round e = round e)
  have above := clear (round e)
  have below := clear (round e - 1)
  push_cast at below
  rw [abs_of_neg (by linarith)] at above
  rw [abs_of_nonneg (by linarith)] at below
  obtain ⟨near_low, near_high⟩ := abs_le.mp near
  exact round_eq_iff.mpr ⟨by linarith, by linarith⟩

end Held

section Whole

/-- A byte is what is left of a whole number that is held between the ends of the range. -/
theorem toNat_byte (n : ℤ) : ((min n.toNat 255).toUInt8.toNat : ℤ) = max 0 (min n 255) := by
  have small : min n.toNat 255 < UInt8.size := lt_of_le_of_lt (min_le_right _ _) (by decide)
  rw [Nat.toUInt8_eq, UInt8.toNat_ofNat_of_lt' small]
  omega

theorem saturate_byte (n : ℤ) : max 0 (min (saturate n) 255) = max 0 (min n 255) := by
  unfold saturate Binary64.leastWhole Binary64.greatestWhole
  split_ifs <;> omega

theorem roundAway_of_nonneg (nonneg : 0 ≤ x) : roundAway x = round x := by
  rw [roundAway, if_neg (not_lt.mpr nonneg), round_eq]

/-- Rounding keeps the order, and the ends of the range are whole. -/
theorem roundAway_byte (x : ℝ) : max 0 (min (roundAway x) 255) = round (held 255 x) := by
  have range : (0 : ℝ) ≤ 255 := by norm_num
  rcases lt_or_ge x 0 with negative | nonneg
  · have below : roundAway x ≤ 0 := by
      rw [roundAway, if_pos negative]
      have := Int.floor_nonneg.mpr (by linarith : (0 : ℝ) ≤ -x + 1 / 2)
      omega
    rw [held_of_nonpos range negative.le, round_zero]
    omega
  · rw [roundAway_of_nonneg nonneg]
    rcases le_total x 255 with within | beyond
    · have kept : held 255 x = x := by rw [held, min_eq_left within, max_eq_right nonneg]
      have byte := round_mem_byte nonneg within
      rw [kept]
      omega
    · have above : 255 ≤ round x := by
        rw [round_eq]
        exact Int.le_floor.mpr (by push_cast; linarith)
      rw [held_of_le range beyond, round_ofNat]
      omega

end Whole

section Stored

/-- What is stored of a number is its rounded form, or an infinity if that is beyond all bytes. -/
theorem denotes_or_infinite (stores : Stores v z) :
    Denotes v (rounded z) ∨ number v = ⊤ ∧ 255 ≤ rounded z ∨ number v = ⊥ ∧ rounded z ≤ 0 := by
  have value : number v = Rounding.overflow .binary64 (rounded z) := stores.number_eq
  have great : (255 : ℝ) ≤ 2 ^ 1024 :=
    le_trans (by norm_num) (pow_le_pow_right₀ one_le_two (by decide : 8 ≤ 1024))
  rcases le_or_gt (2 ^ 1024) (rounded z) with above | high
  · exact .inr (.inl ⟨value.trans (Rounding.overflow_of_le above), great.trans above⟩)
  · rcases le_or_gt (rounded z) (-2 ^ 1024) with below | low
    · exact .inr (.inr ⟨value.trans (Rounding.overflow_of_le_neg below),
        below.trans (neg_nonpos.mpr (pow_nonneg zero_le_two _))⟩)
    · exact .inl (Binary64.denotes_iff.mpr
        ⟨stores.determinate, value.trans (Rounding.overflow_of_lt low high)⟩)

/-- Rounding and holding what is stored of a number, as the channels do, gives a byte. -/
theorem byte_of_stores (stores : Stores v z) :
    ((min (Binary64.round v).toNat 255).toUInt8.toNat : ℤ) = round (held 255 (rounded z)) := by
  have range : (0 : ℝ) ≤ 255 := by norm_num
  rw [toNat_byte, Binary64.round_of_determinate stores.determinate]
  rcases denotes_or_infinite stores with denotes | ⟨infinite, above⟩ | ⟨infinite, below⟩
  · rw [denotes.number_eq, Rounding.extended_coe, saturate_byte, roundAway_byte]
  · rw [infinite, Rounding.extended_top, held_of_le range above, round_ofNat]
    rfl
  · rw [infinite, Rounding.extended_bot, held_of_nonpos range below, round_zero]
    rfl

theorem byte_of_denotes (denotes : Denotes v y) (nonneg : 0 ≤ y) (le : y ≤ 255) :
    ((Binary64.round v).toNat.toUInt8.toNat : ℤ) = round y := by
  have byte := round_mem_byte nonneg le
  have kept : saturate (round y) = round y := by
    unfold saturate Binary64.leastWhole Binary64.greatestWhole
    split_ifs <;> omega
  have whole : Binary64.round v = round y := by
    rw [Binary64.round_of_determinate denotes.determinate, denotes.number_eq, Rounding.extended_coe,
      roundAway_of_nonneg nonneg, kept]
  have small : (round y).toNat < UInt8.size := by
    change _ < 256
    omega
  rw [whole, Nat.toUInt8_eq, UInt8.toNat_ofNat_of_lt' small, Int.toNat_of_nonneg byte.1]

/-- Holding what is stored of a number between zero and one, as the alpha does, gives a part. -/
theorem denotes_part (stores : Stores v z) :
    Denotes (if v < 0 then 0 else if 1 < v then 1 else v) (held 1 (rounded z)) := by
  have zero := Binary64.denotes_zero
  have one := Binary64.denotes_one
  have below_iff : v < 0 ↔ number v < (0 : ℝ) := by
    rw [Binary64.lt_iff_number stores.determinate zero.determinate, zero.number_eq]
  have above_iff : 1 < v ↔ (1 : ℝ) < number v := by
    rw [Binary64.lt_iff_number one.determinate stores.determinate, one.number_eq]
  rcases denotes_or_infinite stores with denotes | ⟨infinite, above⟩ | ⟨infinite, below⟩
  · rw [denotes.number_eq, EReal.coe_lt_coe_iff] at below_iff above_iff
    split
    · rename_i negative
      rwa [held_of_nonpos zero_le_one (below_iff.mp negative).le]
    · rename_i nonneg
      rw [below_iff, not_lt] at nonneg
      split
      · rename_i beyond
        rwa [held_of_le zero_le_one (above_iff.mp beyond).le]
      · rename_i within
        rw [above_iff, not_lt] at within
        rwa [held, min_eq_left within, max_eq_right nonneg]
  · rw [infinite] at below_iff above_iff
    rw [if_neg (mt below_iff.mp not_top_lt), if_pos (above_iff.mpr (EReal.coe_lt_top 1)),
      held_of_le zero_le_one (le_trans (by norm_num) above)]
    exact one
  · rw [infinite] at below_iff
    rw [if_pos (below_iff.mpr (EReal.bot_lt_coe 0)), held_of_nonpos zero_le_one below]
    exact zero

end Stored

namespace Argument

variable {a : Argument}

/-- The factor of a percentage, the float nearest to 2.55. -/
noncomputable def factor : ℝ := 5742089524897382 / 2 ^ 51

theorem denotes_factor : Denotes 2.55 factor :=
  Binary64.denotes_of_decode
    (show Binary64.decode 2.55 = .finite false 5742089524897382 (-51) by decide +kernel)
    (by norm_num [Binary64.signed, factor])

theorem denotes_100 : Denotes 100 100 :=
  Binary64.denotes_of_decode
    (show Binary64.decode 100 = .finite false 7036874417766400 (-46) by decide +kernel)
    (by norm_num [Binary64.signed])

theorem denotes_255 : Denotes 255 255 :=
  Binary64.denotes_of_decode
    (show Binary64.decode 255 = .finite false 8972014882652160 (-45) by decide +kernel)
    (by norm_num [Binary64.signed])

theorem channel_eq (denotes : Denotes a.value x) : (a.channel.toNat : ℤ) =
    round (held 255 (if a.percent then rounded (x * factor) else x)) := by
  unfold channel
  cases a.percent with
  | true => exact byte_of_stores (denotes.mul denotes_factor)
  | false =>
    have byte := byte_of_stores (denotes.stores)
    rwa [denotes.rounded_eq] at byte

theorem part_mem (x : ℝ) : 0 ≤ held 1 x * 255 ∧ held 1 x * 255 ≤ 255 := by
  have low := held_nonneg 1 x
  have high := held_le zero_le_one x
  constructor <;> linarith

theorem alpha_eq (denotes : Denotes a.value x) : (a.alpha.toNat : ℤ) =
    round (rounded (held 1 (if a.percent then rounded (x / 100) else x) * 255)) := by
  have scaled {v : Float} {y : ℝ} (part : Denotes v (held 1 y)) :
      ((Binary64.round (v * 255)).toNat.toUInt8.toNat : ℤ) = round (rounded (held 1 y * 255)) := by
    obtain ⟨low, high⟩ := part_mem y
    have product := (part.mul denotes_255).denotes_of_lt (by
      rw [abs_of_nonneg low]
      exact high.trans_lt (by norm_num))
    exact byte_of_denotes product (Binary64.rounded_nonneg low) (denotes_255.rounded_le high)
  unfold alpha
  cases a.percent with
  | true => exact scaled (denotes_part (denotes.div denotes_100 (by norm_num)))
  | false =>
    have part := denotes_part (denotes.stores)
    rw [denotes.rounded_eq] at part
    exact scaled part

/-- The number of a channel before it is rounded. -/
noncomputable def exactChannel (a : Argument) (x : ℝ) : ℝ :=
  held (255 : ℕ) (if a.percent then 2.55 * x else x)

/-- The number of the byte of an alpha before it is rounded. -/
noncomputable def exactAlpha (a : Argument) (x : ℝ) : ℝ :=
  held 1 (if a.percent then x / (100 : ℕ) else x) * (255 : ℕ)

theorem exactChannel_eq (a : Argument) (x : ℝ) :
    a.exactChannel x = held 255 (if a.percent then 2.55 * x else x) := by
  rw [exactChannel, Nat.cast_ofNat]

theorem exactAlpha_eq (a : Argument) (x : ℝ) :
    a.exactAlpha x = held 1 (if a.percent then x / 100 else x) * 255 := by
  rw [exactAlpha, Nat.cast_ofNat, Nat.cast_ofNat]

theorem held_product_near (x : ℝ) :
    |held 255 (rounded (x * factor)) - held 255 (2.55 * x)| ≤ 1 / 2 ^ 44 := by
  have range : (0 : ℝ) ≤ 255 := by norm_num
  have low : (2.5 : ℝ) ≤ factor := by norm_num [factor]
  have high : factor ≤ 2.6 := by norm_num [factor]
  rcases le_total 128 x with great | bounded
  · have product : 255 ≤ x * factor := by nlinarith
    rw [held_of_le range (denotes_255.le_rounded product), held_of_le range (by linarith)]
    norm_num
  · rcases le_total x (-128) with negative | bounded'
    · have product : x * factor ≤ 0 := by nlinarith
      rw [held_of_nonpos range (Binary64.denotes_zero.rounded_le product),
        held_of_nonpos range (by linarith)]
      norm_num
    · have size : |x| ≤ 128 := abs_le.mpr ⟨bounded', bounded⟩
      have product : |x * factor| < 2 ^ 9 := by
        rw [abs_mul, abs_of_nonneg (by linarith : 0 ≤ factor)]
        nlinarith
      have computed := Binary64.abs_rounded_sub_le product
      have approximate : |x * factor - 2.55 * x| ≤ 1 / 2 ^ 45 := by
        have off : |factor - 2.55| ≤ 1 / 2 ^ 52 := by
          norm_num [factor, abs_le]
        calc |x * factor - 2.55 * x| = |x| * |factor - 2.55| := by rw [← abs_mul]; ring_nf
          _ ≤ 128 * (1 / 2 ^ 52) := by gcongr
          _ = 1 / 2 ^ 45 := by norm_num
      calc |held 255 (rounded (x * factor)) - held 255 (2.55 * x)|
          ≤ |rounded (x * factor) - 2.55 * x| := abs_held_sub_le ..
        _ ≤ |rounded (x * factor) - x * factor| + |x * factor - 2.55 * x| := abs_sub_le ..
        _ ≤ 2 ^ 9 / 2 ^ 54 + 1 / 2 ^ 45 := add_le_add computed approximate
        _ = 1 / 2 ^ 44 := by norm_num

theorem held_quotient_near (x : ℝ) :
    |held 1 (rounded (x / 100)) - held 1 (x / 100)| ≤ 1 / 2 ^ 53 := by
  have one := Binary64.denotes_one
  rcases le_total 1 (x / 100) with great | bounded
  · rw [held_of_le zero_le_one (one.le_rounded great), held_of_le zero_le_one great]
    norm_num
  · rcases le_total (x / 100) (-1) with negative | bounded'
    · have nonpos : x / 100 ≤ 0 := by linarith
      rw [held_of_nonpos zero_le_one (Binary64.denotes_zero.rounded_le nonpos),
        held_of_nonpos zero_le_one nonpos]
      norm_num
    · have size : |x / 100| < 2 ^ 1 :=
        (abs_le.mpr ⟨bounded', bounded⟩).trans_lt (by norm_num)
      calc |held 1 (rounded (x / 100)) - held 1 (x / 100)|
          ≤ |rounded (x / 100) - x / 100| := abs_held_sub_le ..
        _ ≤ 2 ^ 1 / 2 ^ 54 := Binary64.abs_rounded_sub_le size
        _ = 1 / 2 ^ 53 := by norm_num

theorem scaled_near {p q : ℝ} (nonneg : 0 ≤ p) (le : p ≤ 1) (near : |p - q| ≤ 1 / 2 ^ 53) :
    |rounded (p * 255) - q * 255| ≤ 1 / 2 ^ 44 := by
  have size : |p * 255| < 2 ^ 8 := by
    rw [abs_of_nonneg (by linarith)]
    linarith
  calc |rounded (p * 255) - q * 255|
      ≤ |rounded (p * 255) - p * 255| + |p * 255 - q * 255| := abs_sub_le ..
    _ = |rounded (p * 255) - p * 255| + |p - q| * 255 := by
        rw [← sub_mul, abs_mul, abs_of_nonneg (by norm_num : (0 : ℝ) ≤ 255)]
    _ ≤ 2 ^ 8 / 2 ^ 54 + 1 / 2 ^ 53 * 255 := by
        gcongr
        exact Binary64.abs_rounded_sub_le size
    _ ≤ 1 / 2 ^ 44 := by norm_num

theorem channel_near (denotes : Denotes a.value x) :
    ∃ y, (a.channel.toNat : ℤ) = round y ∧ |y - a.exactChannel x| ≤ 1 / 2 ^ 44 := by
  refine ⟨_, channel_eq denotes, ?_⟩
  rw [exactChannel_eq]
  cases a.percent with
  | true => exact held_product_near x
  | false => simp

theorem alpha_near (denotes : Denotes a.value x) :
    ∃ y, (a.alpha.toNat : ℤ) = round y ∧ |y - a.exactAlpha x| ≤ 1 / 2 ^ 44 := by
  refine ⟨_, alpha_eq denotes, ?_⟩
  rw [exactAlpha_eq]
  refine scaled_near (held_nonneg ..) (held_le zero_le_one _) ?_
  cases a.percent with
  | true => exact held_quotient_near x
  | false => simp

/-- No half is so close to the number that it matters what is lost to rounding. -/
def Settled (e : ℝ) : Prop := ∀ k : ℤ, 1 / 2 ^ 44 < |e - (k + 1 / 2)|

/-- The byte of a number is the nearest one, or next to it where the number is about a half. -/
structure NearestByte (byte : UInt8) (e : ℝ) : Prop where
  settled : Settled e → (byte.toNat : ℤ) = round e
  near : |(byte.toNat : ℝ) - e| ≤ 1 / 2 + 1 / 2 ^ 44

theorem nearestByte_of_near {byte : UInt8} (made : (byte.toNat : ℤ) = round y)
    (near : |y - e| ≤ 1 / 2 ^ 44) : NearestByte byte e := by
  refine ⟨fun settled => made.trans (round_eq_of_near near settled), ?_⟩
  have whole : (byte.toNat : ℝ) = round y := by exact_mod_cast made
  calc |(byte.toNat : ℝ) - e| ≤ |(byte.toNat : ℝ) - y| + |y - e| := abs_sub_le ..
    _ ≤ 1 / 2 + 1 / 2 ^ 44 := by
        refine add_le_add ?_ near
        rw [whole, abs_sub_comm]
        exact abs_sub_round y

/-- What is made of the number of an argument. A plain number is held and rounded to the byte of a
channel exactly. -/
structure Bytes (a : Argument) (x : ℝ) : Prop where
  plain : a.percent = false → (a.channel.toNat : ℤ) = round (a.exactChannel x)
  channel : NearestByte a.channel (a.exactChannel x)
  alpha : NearestByte a.alpha (a.exactAlpha x)

theorem bytes_of_denotes (denotes : Denotes a.value x) : a.Bytes x := by
  obtain ⟨y, made, near⟩ := channel_near denotes
  obtain ⟨z, made', near'⟩ := alpha_near denotes
  refine ⟨fun plain => ?_, nearestByte_of_near made near, nearestByte_of_near made' near'⟩
  have exact := channel_eq denotes
  rw [exactChannel_eq]
  rwa [plain] at exact ⊢

end Argument

end VectorPaint.Rgba
