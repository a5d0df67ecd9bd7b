import VectorPaint.Proofs.Scalar.Arithmetic
import VectorPaint.Proofs.Scalar.Binary64

/-!
Floats of 64 bits over the real numbers. An operation on finite floats stores its exact result: it
is rounded, and infinite only where it is too great. An indeterminate operand makes the result
indeterminate, and with one finite operand bounds of the other one are kept.
-/
namespace VectorPaint.Binary64

open Float.Model Float.Model.UnpackedFloat

/-- The nearest number with 53 bits. -/
noncomputable def rounded (x : ℝ) : ℝ := Rounding.rounded Format.binary64 x

/-- Numbers too great to be stored become infinite. -/
noncomputable def stored (x : ℝ) : EReal := Rounding.overflow Format.binary64 (rounded x)

/-- The float is finite and stands for the number. -/
structure Denotes (a : Float) (x : ℝ) : Prop where
  finite : Rounding.Finite Format.binary64 a.toModel.unpack
  real_eq : Rounding.real a.toModel.unpack = x

variable {a b : Float} {x y : ℝ}

section Rounded

theorem rounded_mono : Monotone rounded := Rounding.rounded_mono _

theorem rounded_natCast {n : ℕ} (small : n < 2 ^ 53) : rounded n = n :=
  Rounding.rounded_natCast small

theorem rounded_neg (x : ℝ) : rounded (-x) = -rounded x := by
  unfold rounded Rounding.rounded
  rcases lt_trichotomy x 0 with negative | rfl | positive
  · rw [if_neg (by linarith), if_pos negative, neg_neg]
  · simp [Rounding.magnitude_zero]
  · rw [if_pos (by linarith), if_neg (by linarith), neg_neg]

@[simp] theorem rounded_zero : rounded 0 = 0 := by
  have zero := rounded_natCast (n := 0) (by decide)
  simpa using zero

theorem rounded_nonneg (nonneg : 0 ≤ x) : 0 ≤ rounded x := Rounding.rounded_nonneg nonneg

private theorem least_le (k : ℕ) :
    Format.binary64.minExponent + Format.binary64.mantissaBits ≤ k :=
  show (-1074 + 53 : ℤ) ≤ k by omega

/-- Numbers below a power of two are moved by little. -/
theorem abs_rounded_sub_le {k : ℕ} (small : |x| < 2 ^ k) : |rounded x - x| ≤ 2 ^ k / 2 ^ 54 := by
  have near := Rounding.abs_rounded_sub_le (S := Format.binary64) (k := k)
    (by rwa [zpow_natCast]) (least_le k)
  refine near.trans_eq ?_
  rw [sub_sub, zpow_sub₀ two_ne_zero, zpow_natCast]
  rfl

theorem abs_rounded_lt {k : ℕ} (small : |x| < 2 ^ k) : |rounded x| < 2 ^ (k + 1) := by
  have bound := Rounding.abs_rounded_lt (S := Format.binary64) (k := k)
    (by rwa [zpow_natCast]) (least_le k)
  rwa [← Nat.cast_add_one, zpow_natCast] at bound

end Rounded

section Stores

/-- A number below the greatest power of two is stored as it is rounded. -/
theorem stored_of_lt (small : |x| < 2 ^ 1023) : stored x = rounded x := by
  obtain ⟨low, high⟩ := abs_lt.mp (abs_rounded_lt small)
  exact Rounding.overflow_of_lt low high

theorem stored_mono : Monotone stored :=
  fun _ _ le => Rounding.overflow_mono _ (rounded_mono le)

theorem stored_natCast {n : ℕ} (small : n < 2 ^ 53) : stored n = (n : ℝ) := by
  have size : |(n : ℝ)| < 2 ^ 1023 := by
    rw [abs_of_nonneg n.cast_nonneg]
    exact_mod_cast small.trans (Nat.pow_lt_pow_right one_lt_two (by norm_num))
  rw [stored_of_lt size, rounded_natCast small]

theorem denotes_iff : Denotes a x ↔ Determinate a ∧ number a = x := by
  constructor
  · rintro ⟨finite, rfl⟩
    refine ⟨?_, Rounding.value_of_finite finite⟩
    intro indeterminate
    rw [indeterminate] at finite
    cases finite
  · rintro ⟨determinate, same⟩
    rcases determinate.number_unpack with finite | ⟨sign, infinite⟩
    · rw [number, Rounding.value_of_finite finite, EReal.coe_eq_coe_iff] at same
      exact ⟨finite, same⟩
    · rw [number, infinite] at same
      cases sign with
      | negative => exact absurd same (EReal.bot_ne_coe x)
      | positive => exact absurd same (EReal.top_ne_coe x)

theorem Denotes.determinate (denotes : Denotes a x) : Determinate a := (denotes_iff.mp denotes).1

theorem Denotes.number_eq (denotes : Denotes a x) : number a = x := (denotes_iff.mp denotes).2

/-- The float is what is stored of the number. -/
structure Stores (a : Float) (x : ℝ) : Prop where
  determinate : Determinate a
  number_eq : number a = stored x

theorem Stores.denotes (stores : Stores a x) (small : |x| < 2 ^ 1023) : Denotes a (rounded x) :=
  denotes_iff.mpr ⟨stores.determinate, stores.number_eq.trans (stored_of_lt small)⟩

/-- Most numbers are far from too great. -/
theorem Stores.denotes_of_lt (stores : Stores a x) (small : |x| < 2 ^ 64) :
    Denotes a (rounded x) :=
  stores.denotes (small.trans (pow_lt_pow_right₀ one_lt_two (by decide)))

theorem stores_pack {u : UnpackedFloat}
    (spec : Rounding.Finite Format.binary64 u ∧ Rounding.real u = rounded x) :
    Stores (.ofModel (.pack u)) x := by
  have packed := Rounding.value_unpack_pack room spec.1
  rw [spec.2] at packed
  exact ⟨packed.1, packed.2⟩

theorem stored_neg (x : ℝ) : stored (-x) = -stored x := by
  have great : (0 : ℝ) < 2 ^ (Format.binary64.exponentBias + 1) := by positivity
  rw [stored, stored, rounded_neg]
  rcases lt_or_ge (rounded x) (2 ^ (Format.binary64.exponentBias + 1)) with high | above
  · rcases lt_or_ge (-2 ^ (Format.binary64.exponentBias + 1)) (rounded x) with low | below
    · rw [Rounding.overflow_of_lt low high, Rounding.overflow_of_lt (neg_lt_neg high)
        (neg_lt.mpr low), EReal.coe_neg]
    · rw [Rounding.overflow_of_le_neg below, Rounding.overflow_of_le (le_neg.mpr below),
        EReal.neg_bot]
  · rw [Rounding.overflow_of_le above, Rounding.overflow_of_le_neg (neg_le_neg above),
      EReal.neg_top]

/-- A number of the format is not changed by rounding. -/
theorem Denotes.rounded_eq (denotes : Denotes a x) : rounded x = x := by
  rw [← denotes.real_eq]
  exact Rounding.rounded_real denotes.finite

/-- So it bounds what is rounded as well. -/
theorem Denotes.le_rounded (denotes : Denotes a x) (le : x ≤ y) : x ≤ rounded y :=
  denotes.rounded_eq.symm.trans_le (rounded_mono le)

theorem Denotes.rounded_le (denotes : Denotes a y) (le : x ≤ y) : rounded x ≤ y :=
  (rounded_mono le).trans_eq denotes.rounded_eq

end Stores

section Sign

/-- A stored float with another sign is stored as it is. -/
private theorem unpack_pack_sign {sign : Sign} {mantissa : ℕ} {e : ℤ} {positive : 0 < mantissa}
    (read : a.toModel.unpack = .finite sign mantissa e positive) (sign' : Sign) :
    (pack (.finite sign' mantissa e positive)).unpack = .finite sign' mantissa e positive := by
  have determinate : Determinate a := fun indeterminate =>
    UnpackedFloat.noConfusion (read.symm.trans indeterminate)
  have finite := determinate.number_unpack.resolve_right fun ⟨_, infinite⟩ =>
    UnpackedFloat.noConfusion (read.symm.trans infinite)
  rw [read] at finite
  have fits : Rounding.Finite Format.binary64 (.finite sign' mantissa e positive) := finite
  exact (Rounding.unpack_pack fits).trans
    (if_pos (Rounding.le_greatestExponent_of_unpack room read))

theorem unpack_neg (a : Float) : (-a).toModel.unpack = a.toModel.unpack.neg := by
  have model : (-a).toModel.unpack = (pack a.toModel.unpack.neg).unpack := rfl
  rw [model]
  cases read : a.toModel.unpack with
  | notANumber => rfl
  | infinity sign => exact Rounding.unpack_packedInfinity (-sign)
  | zero sign => exact Rounding.unpack_pack (u := .zero (-sign)) trivial
  | finite sign mantissa e positive => exact unpack_pack_sign read (-sign)

theorem Stores.neg (stores : Stores a x) : Stores (-a) (-x) := by
  obtain ⟨determinate, same⟩ := stores
  rw [Determinate] at determinate
  rw [number] at same
  constructor
  · rw [Determinate, unpack_neg]
    cases read : a.toModel.unpack with
    | notANumber => exact absurd read determinate
    | _ => exact UnpackedFloat.noConfusion
  · rw [stored_neg, ← same, number, unpack_neg]
    cases a.toModel.unpack with
    | infinity sign => cases sign <;> rfl
    | _ => exact (congrArg _ (Rounding.real_neg _)).trans (EReal.coe_neg _)

theorem unpack_abs (a : Float) : a.abs.toModel.unpack = a.toModel.unpack.abs := by
  have model : a.abs.toModel.unpack = (pack a.toModel.unpack.abs).unpack := rfl
  rw [model]
  cases read : a.toModel.unpack with
  | notANumber => rfl
  | infinity sign => exact Rounding.unpack_packedInfinity .positive
  | zero sign => exact Rounding.unpack_pack (u := .zero .positive) trivial
  | finite sign mantissa e positive => exact unpack_pack_sign read .positive

/-- What was stored is stored as it is. -/
theorem unpack_pack_unpack (a : Float) : (pack a.toModel.unpack).unpack = a.toModel.unpack := by
  cases read : a.toModel.unpack with
  | notANumber => rfl
  | infinity sign => exact Rounding.unpack_packedInfinity sign
  | zero sign => exact Rounding.unpack_pack (u := .zero sign) trivial
  | finite sign mantissa e positive => exact unpack_pack_sign read sign

theorem Denotes.stored_eq (denotes : Denotes a x) : stored x = x := by
  have kept := (Rounding.value_unpack_pack room denotes.finite).2
  have same : number a = Rounding.overflow Format.binary64 x := by
    rw [← denotes.real_eq, ← kept]
    exact congrArg Rounding.value (unpack_pack_unpack a).symm
  rw [stored, denotes.rounded_eq, ← same, denotes.number_eq]

theorem Denotes.stores (denotes : Denotes a x) : Stores a x :=
  ⟨denotes.determinate, denotes.number_eq.trans denotes.stored_eq.symm⟩

/-- A result that is a float itself is not rounded. -/
theorem Stores.exact (stores : Stores a x) (known : Denotes b x) : Denotes a x :=
  denotes_iff.mpr ⟨stores.determinate, stores.number_eq.trans known.stored_eq⟩

end Sign

namespace Denotes

/-- A float for a number is a zero, or its mantissa and exponent are the number but for the sign. -/
theorem zero_or_mantissa (denotes : Denotes a x) :
    (x = 0 ∧ ∃ sign, a.toModel.unpack = .zero sign) ∨
      ∃ sign mantissa e positive, a.toModel.unpack = .finite sign mantissa e positive ∧
        Rounding.Fits Format.binary64 mantissa e ∧ |x| = mantissa * 2 ^ e := by
  obtain ⟨finite, rfl⟩ := denotes
  cases read : a.toModel.unpack with
  | zero sign => exact .inl ⟨rfl, sign, rfl⟩
  | infinity sign => rw [read] at finite; cases finite
  | notANumber => rw [read] at finite; cases finite
  | finite sign mantissa e positive =>
    rw [read] at finite
    have nonneg : (0 : ℝ) ≤ mantissa * 2 ^ e := by positivity
    refine .inr ⟨sign, mantissa, e, positive, rfl, finite, ?_⟩
    cases sign with
    | positive => exact abs_of_nonneg nonneg
    | negative => exact (abs_neg _).trans (abs_of_nonneg nonneg)

theorem add (first : Denotes a x) (second : Denotes b y) : Stores (a + b) (x + y) := by
  have spec := Rounding.add_spec first.finite second.finite
  rw [first.real_eq, second.real_eq] at spec
  exact stores_pack spec

theorem sub (first : Denotes a x) (second : Denotes b y) : Stores (a - b) (x - y) := by
  have spec := Rounding.sub_spec first.finite second.finite
  rw [first.real_eq, second.real_eq] at spec
  exact stores_pack spec

theorem mul (first : Denotes a x) (second : Denotes b y) : Stores (a * b) (x * y) := by
  have spec := Rounding.mul_spec first.finite second.finite
  rw [first.real_eq, second.real_eq] at spec
  exact stores_pack spec

theorem div (first : Denotes a x) (second : Denotes b y) (divisor : y ≠ 0) :
    Stores (a / b) (x / y) := by
  have spec := Rounding.div_spec first.finite second.finite (second.real_eq ▸ divisor)
  rw [first.real_eq, second.real_eq] at spec
  exact stores_pack spec

theorem sqrt (denotes : Denotes a x) (nonneg : 0 ≤ x) : Stores a.sqrt √x := by
  have spec := Rounding.sqrt_spec denotes.finite (denotes.real_eq ▸ nonneg)
  rw [denotes.real_eq] at spec
  exact stores_pack spec

theorem neg (denotes : Denotes a x) : Denotes (-a) (-x) := by
  constructor
  · rw [unpack_neg]
    exact Rounding.finite_neg denotes.finite
  · rw [unpack_neg, Rounding.real_neg, denotes.real_eq]

theorem abs (denotes : Denotes a x) : Denotes a.abs |x| := by
  obtain ⟨rfl, sign, zero⟩ | ⟨sign, mantissa, e, positive, read, fits, size⟩ :=
    denotes.zero_or_mantissa
  · constructor
    · rw [unpack_abs, zero]
      exact trivial
    · rw [unpack_abs, zero]
      exact abs_zero.symm
  · constructor
    · rw [unpack_abs, read]
      exact fits
    · rw [unpack_abs, read]
      exact size.symm

theorem isFinite (denotes : Denotes a x) : a.isFinite = true := by
  change UnpackedFloat.isFinite a.toModel.unpack = true
  obtain ⟨-, sign, zero⟩ | ⟨sign, mantissa, e, positive, read, -⟩ := denotes.zero_or_mantissa
  · rw [zero, UnpackedFloat.isFinite]
  · rw [read, UnpackedFloat.isFinite]

theorem le_iff (first : Denotes a x) (second : Denotes b y) : a ≤ b ↔ x ≤ y := by
  rw [le_iff_number first.determinate second.determinate, first.number_eq, second.number_eq,
    EReal.coe_le_coe_iff]

theorem lt_iff (first : Denotes a x) (second : Denotes b y) : a < b ↔ x < y := by
  rw [lt_iff_number first.determinate second.determinate, first.number_eq, second.number_eq,
    EReal.coe_lt_coe_iff]

theorem beq_iff (first : Denotes a x) (second : Denotes b y) : (a == b) = true ↔ x = y := by
  rw [beq_iff_number first.determinate second.determinate, first.number_eq, second.number_eq,
    EReal.coe_eq_coe_iff]

theorem smaller (first : Denotes a x) (second : Denotes b y) :
    Denotes (if a < b then a else b) (min x y) := by
  split
  · rename_i less
    rwa [min_eq_left ((first.lt_iff second).mp less).le]
  · rename_i not_less
    rwa [min_eq_right (not_lt.mp (mt (first.lt_iff second).mpr not_less))]

theorem larger (first : Denotes a x) (second : Denotes b y) :
    Denotes (if a < b then b else a) (max x y) := by
  split
  · rename_i less
    rwa [max_eq_right ((first.lt_iff second).mp less).le]
  · rename_i not_less
    rwa [max_eq_left (not_lt.mp (mt (first.lt_iff second).mpr not_less))]

theorem least (first : Denotes a x) (second : Denotes b y) :
    Denotes (Scalar.least a b) (min x y) := by
  rw [Scalar.least, if_pos (beq_self_iff.mpr first.determinate), min_comm]
  exact second.smaller first

theorem greatest (first : Denotes a x) (second : Denotes b y) :
    Denotes (Scalar.greatest a b) (max x y) := by
  rw [Scalar.greatest, if_pos (beq_self_iff.mpr first.determinate)]
  exact first.larger second

end Denotes

section OfNat

theorem exists_denotes_of_isFinite (finite : a.isFinite = true) : ∃ x, Denotes a x := by
  rcases (determinate_of_isFinite finite).number_unpack with number | ⟨sign, infinite⟩
  · exact ⟨_, number, rfl⟩
  · change UnpackedFloat.isFinite a.toModel.unpack = true at finite
    rw [infinite] at finite
    cases finite

/-- The number of a finite float can be read from its parts. -/
theorem denotes_of_decode {negative : Bool} {mantissa : ℕ} {e : ℤ}
    (read : decode a = .finite negative mantissa e)
    (value : (signed negative mantissa : ℝ) * 2 ^ e = x) : Denotes a x := by
  rw [decode_eq] at read
  have determinate : Determinate a := by
    intro indeterminate
    rw [indeterminate] at read
    cases read
  rcases determinate.number_unpack with finite | ⟨sign, infinite⟩
  · refine ⟨finite, ?_⟩
    cases unpacked : a.toModel.unpack with
    | notANumber => exact absurd unpacked determinate
    | infinity sign => rw [unpacked] at finite; cases finite
    | zero sign =>
      rw [unpacked] at read
      cases read
      rw [← value, Rounding.real]
      cases sign <;> simp [isNegative, signed]
    | finite sign mantissa e positive =>
      rw [unpacked] at read
      cases read
      rw [← value, signed_isNegative, Rounding.real]
      cases sign with
      | positive => rfl
      | negative => exact (neg_mul _ _).symm
  · rw [infinite] at read
    cases read

/-- The sign of a number as a factor. -/
noncomputable def signOf (negative : Bool) : ℝ := if negative then -1 else 1

theorem abs_signOf_mul (negative : Bool) (x : ℝ) : |signOf negative * x| = |x| := by
  unfold signOf
  split
  · rw [neg_one_mul, abs_neg]
  · rw [one_mul]

theorem rounded_signOf_mul (negative : Bool) (x : ℝ) :
    rounded (signOf negative * x) = signOf negative * rounded x := by
  unfold signOf
  split
  · rw [neg_one_mul, neg_one_mul, rounded_neg]
  · rw [one_mul, one_mul]

/-- A float for a number is read as the parts of it. -/
theorem Denotes.exists_decode (denotes : Denotes a x) :
    ∃ negative mantissa e, decode a = .finite negative mantissa e ∧ mantissa < 2 ^ 53 ∧
      x = signOf negative * (mantissa * 2 ^ e) := by
  obtain ⟨finite, rfl⟩ := denotes
  rw [decode_eq]
  generalize a.toModel.unpack = u at finite
  cases u with
  | notANumber => cases finite
  | infinity sign => cases finite
  | zero sign =>
    refine ⟨_, _, _, rfl, by decide, ?_⟩
    rw [Nat.cast_zero, zero_mul, mul_zero]
    rfl
  | finite sign mantissa e positive =>
    refine ⟨_, _, _, rfl, finite.bounded, ?_⟩
    cases sign with
    | positive => exact (one_mul _).symm
    | negative => exact (neg_one_mul _).symm

theorem denotes_zero : Denotes 0 0 :=
  denotes_of_decode (show decode 0 = .finite false 0 (-1074) by decide +kernel)
    (by norm_num [signed])

theorem denotes_one : Denotes 1 1 :=
  denotes_of_decode (show decode 1 = .finite false (2 ^ 52) (-52) by decide +kernel)
    (by norm_num [signed])

theorem denotes_half : Denotes Scalar.half (1 / 2) :=
  denotes_of_decode
    (show decode (Scalar.half : Float) = .finite false (2 ^ 52) (-53) by decide +kernel)
    (by norm_num [signed])

theorem denotes_epsilon : Denotes epsilon (1 / 2 ^ 52) :=
  denotes_of_decode (show decode epsilon = .finite false (2 ^ 52) (-104) by decide +kernel)
    (by norm_num [signed])

private theorem denotes_toFloat {n : ℕ} (small : n < 2 ^ 53) : Denotes n.toUInt64.toFloat n := by
  have word : n.toUInt64.toNat = n := Nat.mod_eq_of_lt (small.trans (by decide))
  have spec := Rounding.normalize_spec (S := Format.binary64) n.toUInt64.toNat 0 .positive
  rw [zpow_zero, mul_one, Int.cast_natCast] at spec
  have size : |(n : ℝ)| < 2 ^ 1023 := by
    rw [abs_of_nonneg n.cast_nonneg]
    exact_mod_cast small.trans (Nat.pow_lt_pow_right one_lt_two (by norm_num))
  have stores : Stores n.toUInt64.toFloat n.toUInt64.toNat := stores_pack spec
  rw [word] at stores
  have whole := stores.denotes size
  rwa [rounded_natCast small] at whole

/-- The value is ten to the power of `k`; its exponent is counted from one that is small enough. -/
private def isPowerOfTen (k : ℕ) : Value → Bool
  | .finite false mantissa e =>
    decide (-60 ≤ e) && decide (mantissa * 2 ^ (e + 60).toNat = 10 ^ k * 2 ^ 60)
  | _ => false

private theorem isPowerOfTen_decode : ∀ k : Fin Float.exactlyRepresentablePowersOfTen.size,
    isPowerOfTen k (decode Float.exactlyRepresentablePowersOfTen[k]) = true := by
  decide +kernel

private theorem denotes_of_isPowerOfTen {k : ℕ} (power : isPowerOfTen k (decode a) = true) :
    Denotes a (10 ^ k) := by
  cases read : decode a with
  | nan => rw [read] at power; cases power
  | infinite negative => rw [read] at power; cases power
  | finite negative mantissa e =>
    rw [read] at power
    cases negative with
    | true => cases power
    | false =>
      rw [isPowerOfTen, Bool.and_eq_true, decide_eq_true_iff, decide_eq_true_iff] at power
      obtain ⟨least, same⟩ := power
      refine denotes_of_decode read ?_
      have same : (mantissa * 2 ^ (e + 60) : ℝ) = 10 ^ k * 2 ^ 60 := by
        rw [← Int.toNat_of_nonneg (by omega : 0 ≤ e + 60), zpow_natCast]
        exact_mod_cast same
      rw [zpow_add₀ two_ne_zero] at same
      have whole : (signed false mantissa : ℝ) = mantissa := by simp [signed]
      rw [whole]
      refine mul_right_cancel₀ (b := (2 : ℝ) ^ 60) (by positivity) (Eq.trans ?_ same)
      rw [mul_assoc]
      rfl

/-- The fast way for small numbers and the slow one for great ones give the same. -/
theorem stores_ofScientific {n : ℕ} {e : ℤ} (high : e ≤ 2 ^ 11) (low : -(2 ^ 11 + n.log2) ≤ e) :
    Stores (Float.ofScientific n (decide (e < 0)) e.natAbs) (n * 10 ^ e) := by
  unfold Float.ofScientific
  split
  · rename_i small
    have whole := denotes_toFloat small.1
    have power : Denotes _ _ :=
      denotes_of_isPowerOfTen (isPowerOfTen_decode ⟨e.natAbs, Nat.lt_succ_of_le small.2⟩)
    rcases lt_or_ge e 0 with negative | nonneg
    · have value : (n * 10 ^ e : ℝ) = n / 10 ^ e.natAbs := by
        rw [← zpow_natCast, Int.ofNat_natAbs_of_nonpos negative.le, zpow_neg, div_inv_eq_mul]
      rw [decide_eq_true negative, value]
      exact whole.div power (by positivity)
    · have value : (n * 10 ^ e : ℝ) = n * 10 ^ e.natAbs := by
        rw [← zpow_natCast, Int.natAbs_of_nonneg nonneg]
      rw [decide_eq_false (not_lt.mpr nonneg), value]
      exact whole.mul power
  · have same : (if decide (e < 0) = true then Int.negOfNat e.natAbs else Int.ofNat e.natAbs) =
        e := by
      rcases lt_or_ge e 0 with negative | nonneg
      · rw [if_pos (decide_eq_true negative), Int.negOfNat_eq]
        exact (congrArg _ (Int.ofNat_natAbs_of_nonpos negative.le)).trans (neg_neg e)
      · rw [if_neg (by simpa using nonneg)]
        exact Int.natAbs_of_nonneg nonneg
    rw [same]
    exact stores_pack (Rounding.ofScientific_spec high low)

theorem stores_ofNat (n : ℕ) : Stores (Scalar.ofNat n) n := by
  have stores := stores_ofScientific (n := n) (e := 0) (by decide) (by omega)
  rwa [zpow_zero, mul_one] at stores

theorem denotes_ofNat {n : ℕ} (small : n < 2 ^ 53) : Denotes (Scalar.ofNat n) n :=
  denotes_iff.mpr ⟨(stores_ofNat n).determinate,
    (stores_ofNat n).number_eq.trans (stored_natCast small)⟩

end OfNat

section Indeterminate

private theorem indeterminate_pack : ¬ Determinate (.ofModel (.pack .notANumber)) := not_not.mpr rfl

/-- An operation that an indeterminate operand makes indeterminate. -/
private theorem determinate_of_pack {op : UnpackedFloat → UnpackedFloat → UnpackedFloat}
    (left : ∀ v, op .notANumber v = .notANumber) (right : ∀ u, op u .notANumber = .notANumber)
    (determinate : Determinate (.ofModel (.pack (op a.toModel.unpack b.toModel.unpack)))) :
    Determinate a ∧ Determinate b := by
  constructor
  · intro indeterminate
    rw [indeterminate, left] at determinate
    exact indeterminate_pack determinate
  · intro indeterminate
    rw [indeterminate, right] at determinate
    exact indeterminate_pack determinate

namespace Determinate

theorem of_add (determinate : Determinate (a + b)) : Determinate a ∧ Determinate b :=
  determinate_of_pack (fun v => by cases v <;> rfl) (fun u => by cases u <;> rfl) determinate

theorem of_sub (determinate : Determinate (a - b)) : Determinate a ∧ Determinate b :=
  determinate_of_pack (fun v => by cases v <;> rfl) (fun u => by cases u <;> rfl) determinate

theorem of_mul (determinate : Determinate (a * b)) : Determinate a ∧ Determinate b :=
  determinate_of_pack (fun v => by cases v <;> rfl) (fun u => by cases u <;> rfl) determinate

theorem of_div (determinate : Determinate (a / b)) : Determinate a ∧ Determinate b :=
  determinate_of_pack (fun v => by cases v <;> rfl) (fun u => by cases u <;> rfl) determinate

theorem of_sqrt (determinate : Determinate a.sqrt) : Determinate a := by
  intro indeterminate
  have model : a.sqrt =
    .ofModel (.pack (UnpackedFloat.sqrt Format.binary64 a.toModel.unpack)) := rfl
  rw [model, indeterminate] at determinate
  exact indeterminate_pack determinate

theorem of_abs (determinate : Determinate a.abs) : Determinate a := by
  intro indeterminate
  have model : a.abs = .ofModel (.pack a.toModel.unpack.abs) := rfl
  rw [model, indeterminate] at determinate
  exact indeterminate_pack determinate

end Determinate

theorem not_lt_indeterminate (second : ¬ Determinate b) : ¬ a < b := by
  change ¬ decide (a.toModel < b.toModel) = true
  rw [decide_eq_true_iff]
  change ¬ UnpackedFloat.lt a.toModel.unpack b.toModel.unpack = true
  rw [not_not.mp second]
  cases a.toModel.unpack with
  | infinity sign => cases sign <;> exact Bool.false_ne_true
  | _ => exact Bool.false_ne_true

theorem Determinate.exists_denotes (determinate : Determinate a) (within : a.abs.isInf = false) :
    ∃ x, Denotes a x := by
  rcases determinate.number_unpack with finite | ⟨sign, infinite⟩
  · exact ⟨_, finite, rfl⟩
  · change UnpackedFloat.isInf a.abs.toModel.unpack = false at within
    rw [unpack_abs, infinite] at within
    cases within

theorem number_abs_of_isInf (infinite : a.abs.isInf = true) : number a.abs = ⊤ := by
  change UnpackedFloat.isInf a.abs.toModel.unpack = true at infinite
  rw [number, unpack_abs] at *
  cases read : a.toModel.unpack with
  | infinity sign => rfl
  | _ => rw [read] at infinite; cases infinite

/-- A float between two finite ones is finite. -/
theorem exists_denotes_of_between {c : Float} (first : Denotes a x) (second : Denotes b y)
    (determinate : Determinate c) (low : number a ≤ number c) (high : number c ≤ number b) :
    ∃ z, Denotes c z := by
  rw [first.number_eq] at low
  rw [second.number_eq] at high
  refine ⟨(number c).toReal, denotes_iff.mpr ⟨determinate, (EReal.coe_toReal ?_ ?_).symm⟩⟩
  · exact (high.trans_lt (EReal.coe_lt_top y)).ne
  · exact ((EReal.bot_lt_coe x).trans_le low).ne'

theorem exists_denotes_greatest {c : Float} (first : Denotes a x) (second : Denotes b y)
    (within : ¬ b < c) : ∃ z, Denotes (Scalar.greatest a c) z := by
  rw [Scalar.greatest, if_pos (beq_self_iff.mpr first.determinate)]
  split
  · rename_i less
    have determinate : Determinate c := not_not.mp (mt not_lt_indeterminate (not_not.mpr less))
    refine exists_denotes_of_between first second determinate ?_ ?_
    · exact ((lt_iff_number first.determinate determinate).mp less).le
    · exact not_lt.mp (mt (lt_iff_number second.determinate determinate).mpr within)
  · exact ⟨x, first⟩

theorem exists_denotes_least {c : Float} (first : Denotes a x) (second : Denotes b y)
    (within : ¬ c < a) : ∃ z, Denotes (Scalar.least b c) z := by
  rw [Scalar.least, if_pos (beq_self_iff.mpr second.determinate)]
  split
  · rename_i less
    have determinate : Determinate c := not_not.mp (mt not_lt_of_indeterminate (not_not.mpr less))
    refine exists_denotes_of_between first second determinate ?_ ?_
    · exact not_lt.mp (mt (lt_iff_number determinate first.determinate).mpr within)
    · exact ((lt_iff_number determinate second.determinate).mp less).le
  · exact ⟨y, second⟩

theorem Denotes.exists_zero (denotes : Denotes a 0) : ∃ sign, a.toModel.unpack = .zero sign := by
  obtain ⟨-, zero⟩ | ⟨sign, mantissa, e, positive, -, -, size⟩ := denotes.zero_or_mantissa
  · exact zero
  · have nonzero : (mantissa * 2 ^ e : ℝ) ≠ 0 := by positivity
    rw [abs_zero] at size
    exact absurd size.symm nonzero

/-- Of the products with zero all are zero that are determinate. -/
theorem Denotes.mul_zero (second : Denotes b 0) (determinate : Determinate (a * b)) :
    Denotes (a * b) 0 := by
  rcases (Determinate.of_mul determinate).1.number_unpack with finite | ⟨sign, infinite⟩
  · have product := (Denotes.mk finite rfl).mul second
    rw [MulZeroClass.mul_zero] at product
    exact product.exact denotes_zero
  · obtain ⟨sign', zero⟩ := second.exists_zero
    have model : a * b = .ofModel (.pack
      (UnpackedFloat.mul Format.binary64 a.toModel.unpack b.toModel.unpack)) := rfl
    have lost (sign sign' : Sign) :
        UnpackedFloat.mul Format.binary64 (.infinity sign) (.zero sign') = .notANumber := rfl
    rw [model, infinite, zero, lost] at determinate
    exact absurd determinate indeterminate_pack

end Indeterminate

section Infinite

theorem Determinate.sub (determinate : Determinate a) (second : Denotes b y) :
    Determinate (a - b) :=
  (sub_of_determinate second.finite determinate).1

theorem Denotes.number_sub_le (second : Denotes b y) (determinate : Determinate a)
    (le : number a ≤ x) : number (a - b) ≤ stored (x - y) := by
  rw [(sub_of_determinate second.finite determinate).2, second.real_eq]
  exact (Rounding.lowered_mono _ _ le).trans_eq (Rounding.extended_coe x)

theorem Denotes.le_number_sub (second : Denotes b y) (determinate : Determinate a)
    (le : x ≤ number a) : stored (x - y) ≤ number (a - b) := by
  rw [(sub_of_determinate second.finite determinate).2, second.real_eq]
  exact (Rounding.extended_coe x).symm.trans_le (Rounding.lowered_mono _ _ le)

private theorem add_eq_sub_neg (a b : Float) : a + b = a - -b := by
  have sum : a + b = .ofModel (.pack
    (UnpackedFloat.add Format.binary64 a.toModel.unpack b.toModel.unpack)) := rfl
  have difference : a - -b = .ofModel (.pack
    (UnpackedFloat.sub Format.binary64 a.toModel.unpack (-b).toModel.unpack)) := rfl
  rw [sum, difference, unpack_neg, Rounding.add_eq_sub_neg]

theorem Determinate.add (determinate : Determinate a) (second : Denotes b y) :
    Determinate (a + b) :=
  add_eq_sub_neg a b ▸ determinate.sub second.neg

theorem Denotes.number_add_le (second : Denotes b y) (determinate : Determinate a)
    (le : number a ≤ x) : number (a + b) ≤ stored (x + y) := by
  rw [add_eq_sub_neg, ← sub_neg_eq_add x]
  exact second.neg.number_sub_le determinate le

theorem Denotes.le_number_add (second : Denotes b y) (determinate : Determinate a)
    (le : x ≤ number a) : stored (x + y) ≤ number (a + b) := by
  rw [add_eq_sub_neg, ← sub_neg_eq_add x]
  exact second.neg.le_number_sub determinate le

end Infinite

section Whole

theorem Denotes.floor_eq (denotes : Denotes a x) : Binary64.floor a = saturate ⌊x⌋ := by
  rw [floor_of_determinate denotes.determinate, denotes.number_eq]
  exact Rounding.extended_coe x

theorem Denotes.truncate_eq (denotes : Denotes a x) : truncate a = saturate (wholePart x) := by
  rw [truncate_of_determinate denotes.determinate, denotes.number_eq]
  exact Rounding.extended_coe x

theorem Denotes.round_eq (denotes : Denotes a x) : Binary64.round a = saturate (roundAway x) := by
  rw [round_of_determinate denotes.determinate, denotes.number_eq]
  exact Rounding.extended_coe x

theorem saturate_of_abs_le {n : ℤ} (small : |n| < 2 ^ 63) : saturate n = n := by
  obtain ⟨low, high⟩ := abs_lt.mp small
  unfold saturate leastWhole greatestWhole
  split_ifs <;> omega

theorem saturate_natCast {n : ℕ} (small : n < 2 ^ 53) : saturate n = n := by
  unfold saturate leastWhole greatestWhole
  split_ifs <;> omega

theorem Denotes.floor_natCast {n : ℕ} (denotes : Denotes a x) (small : n < 2 ^ 53) (low : n ≤ x)
    (high : x < n + 1) : Binary64.floor a = n := by
  have whole : ⌊x⌋ = n := Int.floor_eq_iff.mpr ⟨low, high⟩
  rw [← saturate_natCast small, ← whole]
  exact denotes.floor_eq

theorem floor_toNat_le {n : ℕ} (determinate : Determinate a) (le : number a ≤ (n : ℝ)) :
    (Binary64.floor a).toNat ≤ n := by
  have below := heldFloor_mono le
  rw [← floor_of_determinate determinate, heldFloor, Rounding.extended_coe, Int.floor_natCast]
    at below
  have held : saturate n ≤ n := by
    unfold saturate leastWhole greatestWhole
    split_ifs <;> omega
  omega

theorem le_ceil_toNat {n : ℕ} (small : n < 2 ^ 53) (determinate : Determinate a)
    (le : (n : ℝ) ≤ number a) : n ≤ (Binary64.ceil a).toNat := by
  have above := heldCeil_mono le
  rw [← ceil_of_determinate determinate, heldCeil, Rounding.extended_coe, Int.ceil_natCast]
    at above
  rw [saturate_natCast small] at above
  omega

/-- Half numbers beyond this are not among the floats. -/
theorem Denotes.lt_of_half {n : ℕ} (denotes : Denotes a (n + 1 / 2)) : n < 2 ^ 52 := by
  have positive : (0 : ℝ) < n + 1 / 2 := by positivity
  obtain ⟨zero, -⟩ | ⟨sign, mantissa, e, -, -, fits, size⟩ := denotes.zero_or_mantissa
  · exact absurd zero positive.ne'
  rw [abs_of_pos positive] at size
  rcases lt_or_ge e 0 with fraction | whole
  · have bound : (mantissa : ℝ) < 2 ^ 53 := by exact_mod_cast fits.bounded
    have halved : (2 : ℝ) ^ e ≤ 2 ^ (-1 : ℤ) := zpow_le_zpow_right₀ one_le_two (by omega)
    have small : (mantissa * 2 ^ e : ℝ) < 2 ^ 52 := by
      calc (mantissa * 2 ^ e : ℝ) ≤ mantissa * 2 ^ (-1 : ℤ) := by gcongr
        _ < 2 ^ 53 * 2 ^ (-1 : ℤ) := by gcongr
        _ = 2 ^ 52 := by norm_num
    have below : (n : ℝ) < 2 ^ 52 := by linarith
    exact_mod_cast below
  · obtain ⟨k, rfl⟩ := Int.eq_ofNat_of_zero_le whole
    have even : (2 * (mantissa * 2 ^ k) : ℕ) = 2 * n + 1 := by
      have doubled : (2 * (mantissa * 2 ^ k) : ℝ) = 2 * n + 1 := by
        rw [zpow_natCast] at size
        linarith
      exact_mod_cast doubled
    omega

end Whole

end VectorPaint.Binary64
