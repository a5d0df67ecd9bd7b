import VectorPaint.Proofs.Scalar.Packed

/-!
Arithmetic of finite floats. A sum, a product, a quotient or a square root is the rounded one of the
real numbers. Rounding moves a number by no more than half of its unit, and what is stored is the
rounded number unless it is too great.
-/
namespace VectorPaint

open Float.Model Float.Model.UnpackedFloat

theorem abs_nearest_sub_le (x : ℝ) : |nearest x - x| ≤ 1 / 2 := by
  have parts := Int.floor_add_fract x
  have low := Int.fract_nonneg x
  have high := Int.fract_lt_one x
  unfold nearest
  split_ifs with below above
  · rw [abs_le]
    constructor <;> linarith
  · push_cast
    rw [abs_le]
    constructor <;> linarith
  · rcases Int.emod_two_eq_zero_or_one ⌊x⌋ with even | odd
    · rw [even, add_zero, abs_le]
      constructor <;> linarith
    · rw [odd, abs_le]
      push_cast
      constructor <;> linarith

namespace Rounding

variable {S : Format} {x y : ℝ}

theorem minExponent_nonpos (S : Format) : S.minExponent ≤ 0 := by
  have := S.hm
  rw [minExponent_eq]
  omega

/-- Numbers below a power of two are moved by half of the unit that belongs to it. -/
theorem abs_magnitude_sub_le {k : ℤ} (nonneg : 0 ≤ x) (small : x < 2 ^ k)
    (room : S.minExponent + S.mantissaBits ≤ k) :
    |magnitude S x - x| ≤ 2 ^ (k - S.mantissaBits - 1) := by
  rcases nonneg.eq_or_lt with rfl | positive
  · rw [magnitude_zero, sub_zero, abs_zero]
    exact zpow_nonneg zero_le_two _
  have unit : unitExponent S x ≤ k - S.mantissaBits := by
    have log := (Int.lt_zpow_iff_log_lt one_lt_two positive).mp (by exact_mod_cast small)
    unfold unitExponent
    omega
  have scale := unit_pos S x
  have apart : magnitude S x - x =
      (nearest (x / 2 ^ unitExponent S x) - x / 2 ^ unitExponent S x) * 2 ^ unitExponent S x := by
    rw [magnitude, sub_mul, div_mul_cancel₀ _ scale.ne']
  calc |magnitude S x - x|
      ≤ 1 / 2 * 2 ^ unitExponent S x := by
        rw [apart, abs_mul, abs_of_pos scale]
        exact mul_le_mul_of_nonneg_right (abs_nearest_sub_le _) scale.le
    _ ≤ 1 / 2 * 2 ^ (k - S.mantissaBits) := by
        gcongr
        exact one_le_two
    _ = 2 ^ (k - S.mantissaBits - 1) := by
        rw [zpow_sub_one₀ two_ne_zero]
        ring

theorem abs_rounded_sub_le {k : ℤ} (small : |x| < 2 ^ k)
    (room : S.minExponent + S.mantissaBits ≤ k) :
    |rounded S x - x| ≤ 2 ^ (k - S.mantissaBits - 1) := by
  unfold rounded
  split
  · rename_i negative
    rw [abs_of_neg negative] at small
    rw [← abs_neg, neg_sub, sub_neg_eq_add, add_comm, ← sub_neg_eq_add]
    exact abs_magnitude_sub_le (neg_pos.mpr negative).le small room
  · rename_i nonneg
    rw [abs_of_nonneg (not_lt.mp nonneg)] at small
    exact abs_magnitude_sub_le (not_lt.mp nonneg) small room

theorem abs_rounded_lt {k : ℤ} (small : |x| < 2 ^ k)
    (room : S.minExponent + S.mantissaBits ≤ k) : |rounded S x| < 2 ^ (k + 1) := by
  have near := abs_rounded_sub_le small room
  have bound : (2 : ℝ) ^ (k - S.mantissaBits - 1) ≤ 2 ^ k :=
    zpow_le_zpow_right₀ one_le_two (by omega)
  calc |rounded S x| = |rounded S x - x + x| := by rw [sub_add_cancel]
    _ ≤ |rounded S x - x| + |x| := abs_add_le _ _
    _ < 2 ^ k + 2 ^ k := by linarith
    _ = 2 ^ (k + 1) := by
      rw [zpow_add_one₀ two_ne_zero]
      ring

/-- Whole numbers without spare bits are not changed by rounding. -/
theorem rounded_natCast {n : ℕ} (small : n < 2 ^ S.mantissaBits) : rounded S n = n := by
  have least := minExponent_nonpos S
  rw [rounded, if_neg (not_lt.mpr n.cast_nonneg)]
  rcases n.eq_zero_or_pos with rfl | positive
  · rw [Nat.cast_zero, magnitude_zero]
  have unit : unitExponent S n ≤ 0 := by
    have log : n.log2 < S.mantissaBits := (Nat.log2_lt positive.ne').mpr small
    rw [unitExponent, Int.log_natCast, ← Nat.log2_eq_log_two]
    omega
  obtain ⟨k, unit_eq⟩ := Int.exists_eq_neg_ofNat unit
  have whole : (n : ℝ) / 2 ^ unitExponent S n = ((n * 2 ^ k : ℤ) : ℝ) := by
    rw [unit_eq, zpow_neg, zpow_natCast, div_inv_eq_mul]
    push_cast
    rfl
  rw [magnitude, whole, nearest_intCast, ← whole, div_mul_cancel₀ _ (unit_pos S n).ne']

theorem rounded_nonneg (nonneg : 0 ≤ x) : 0 ≤ rounded S x := by
  rw [rounded, if_neg (not_lt.mpr nonneg)]
  exact magnitude_nonneg nonneg

theorem rounded_le_natCast {n : ℕ} (small : n < 2 ^ S.mantissaBits) (le : x ≤ n) :
    rounded S x ≤ n :=
  (rounded_mono S le).trans_eq (rounded_natCast small)

theorem add_eq_sub_neg (u v : UnpackedFloat) :
    UnpackedFloat.add S u v = UnpackedFloat.sub S u v.neg := by
  cases v with
  | notANumber => cases u <;> rfl
  | infinity sign => cases sign <;> cases u <;> rfl
  | zero sign => cases sign <;> cases u <;> rfl
  | finite sign mantissa e positive =>
    cases sign with
    | negative => cases u <;> rfl
    | positive =>
      cases u with
      | finite sign' mantissa' e' positive' =>
        simp only [UnpackedFloat.add, UnpackedFloat.sub, UnpackedFloat.neg]
        congr 1
        exact (sub_neg_eq_add _ _).symm
      | _ => rfl

/-- The sum of two finite floats is the rounded sum of their numbers. -/
theorem add_spec {u v : UnpackedFloat} (first : Finite S u) (second : Finite S v) :
    Finite S (UnpackedFloat.add S u v) ∧
      real (UnpackedFloat.add S u v) = rounded S (real u + real v) := by
  rw [add_eq_sub_neg, ← sub_neg_eq_add, ← real_neg]
  exact sub_spec first (finite_neg second)

theorem signed_mul (sign sign' : Sign) (x y : ℝ) :
    signed (sign * sign') (x * y) = signed sign x * signed sign' y := by
  cases sign <;> cases sign'
  · exact (neg_mul_neg x y).symm
  · exact (neg_mul x y).symm
  · exact (mul_neg x y).symm
  · rfl

theorem signed_div (sign sign' : Sign) (x y : ℝ) :
    signed (sign / sign') (x / y) = signed sign x / signed sign' y := by
  cases sign <;> cases sign'
  · exact (neg_div_neg_eq x y).symm
  · exact (neg_div y x).symm
  · exact (div_neg x).symm
  · rfl

/-- A product has at least the bits that its unit takes away. -/
theorem Fits.add_le_targetExponent {mantissa mantissa' : ℕ} {e e' : ℤ} (first : Fits S mantissa e)
    (second : Fits S mantissa' e') :
    e + e' ≤ S.targetExponent (totalExponent (mantissa * mantissa') (e + e')) := by
  have product : 0 < mantissa * mantissa' := Nat.mul_pos first.positive second.positive
  have least := minExponent_nonpos S
  have fromFull (full : 2 ^ S.mantissaBitsWithoutImplicit ≤ mantissa * mantissa') :
      e + e' ≤ S.targetExponent (totalExponent (mantissa * mantissa') (e + e')) := by
    have bits := (Nat.le_log2 product.ne').mpr full
    unfold Format.targetExponent totalExponent Format.mantissaBits
    omega
  rcases first.full with full | minimal
  · exact fromFull (full.trans (Nat.le_mul_of_pos_right _ second.positive))
  · rcases second.full with full | minimal'
    · exact fromFull (full.trans (Nat.le_mul_of_pos_left _ first.positive))
    · unfold Format.targetExponent
      omega

/-- The product of two finite floats is the rounded product of their numbers. -/
theorem mul_spec {u v : UnpackedFloat} (first : Finite S u) (second : Finite S v) :
    Finite S (UnpackedFloat.mul S u v) ∧
      real (UnpackedFloat.mul S u v) = rounded S (real u * real v) := by
  have zero : rounded S 0 = 0 := (if_neg (lt_irrefl _)).trans (magnitude_zero S)
  cases u with
  | infinity sign => cases first
  | notANumber => cases first
  | zero sign =>
    rw [real, zero_mul, zero]
    cases v with
    | infinity sign' => cases second
    | notANumber => cases second
    | zero sign' => exact ⟨trivial, rfl⟩
    | finite sign' mantissa' e' positive' => exact ⟨trivial, rfl⟩
  | finite sign mantissa e positive =>
    cases v with
    | infinity sign' => cases second
    | notANumber => cases second
    | zero sign' =>
      have factor : real (.zero sign') = 0 := rfl
      rw [factor, mul_zero, zero]
      exact ⟨trivial, rfl⟩
    | finite sign' mantissa' e' positive' =>
      have exact : Tells (mantissa * mantissa') ((mantissa * mantissa' : ℕ) : ℝ) .exact := rfl
      have product : (((mantissa * mantissa' : ℕ) : ℝ) * 2 ^ (e + e')) =
          mantissa * 2 ^ e * (mantissa' * 2 ^ e') := by
        rw [zpow_add₀ two_ne_zero]
        push_cast
        ring
      have spec := roundWithAccuracy_spec (S := S) exact (Nat.mul_pos positive positive')
        (Fits.add_le_targetExponent first second) (sign * sign')
      rw [product, ← rounded_signed (by positivity), signed_mul] at spec
      exact spec

/-- The whole part of a quotient, and what the rest tells of it. -/
theorem tells_div (n : ℕ) {d : ℕ} (positive : 0 < d) :
    Tells (n / d) (n / d : ℝ) (accuracyOfFraction (n % d) d) := by
  have divisor : (0 : ℝ) < d := Nat.cast_pos.mpr positive
  have parts : (n : ℝ) = d * (n / d : ℕ) + (n % d : ℕ) := by
    exact_mod_cast (Nat.div_add_mod n d).symm
  have quotient : (n / d : ℝ) = (n / d : ℕ) + (n % d : ℕ) / d := by
    rw [parts]
    field_simp
  have rest := Nat.mod_lt n positive
  rw [quotient]
  generalize n / d = q
  generalize n % d = r at rest
  unfold accuracyOfFraction
  split
  · rename_i zero
    rw [zero, Nat.cast_zero, zero_div, add_zero]
    rfl
  · rename_i nonzero
    have above : (0 : ℝ) < r / d := div_pos (Nat.cast_pos.mpr (Nat.pos_of_ne_zero nonzero)) divisor
    have below : (r / d : ℝ) < 1 := (div_lt_one divisor).mpr (Nat.cast_lt.mpr rest)
    rcases lt_trichotomy (2 * r) d with less | same | more
    · have half : (r / d : ℝ) < 1 / 2 := by
        rw [div_lt_div_iff₀ divisor two_pos]
        exact_mod_cast (by omega : r * 2 < 1 * d)
      rw [compare_lt_iff_lt.mpr less]
      exact ⟨by linarith, by linarith⟩
    · have half : (r / d : ℝ) = 1 / 2 := by
        rw [div_eq_div_iff divisor.ne' two_ne_zero]
        exact_mod_cast (by omega : r * 2 = 1 * d)
      rw [compare_eq_iff_eq.mpr same]
      exact congrArg _ half
    · have half : (1 / 2 : ℝ) < r / d := by
        rw [div_lt_div_iff₀ two_pos divisor]
        exact_mod_cast (by omega : 1 * d < r * 2)
      rw [compare_gt_iff_gt.mpr more]
      exact ⟨by linarith, by linarith⟩

theorem totalExponent_bounds {mantissa : ℕ} (positive : 0 < mantissa) (e : ℤ) :
    (2 : ℝ) ^ (totalExponent mantissa e - 1) ≤ mantissa * 2 ^ e ∧
      (mantissa * 2 ^ e : ℝ) < 2 ^ totalExponent mantissa e := by
  have scale : (0 : ℝ) < 2 ^ e := zpow_pos zero_lt_two e
  have low : (2 ^ mantissa.log2 : ℝ) ≤ mantissa := by
    exact_mod_cast Nat.log2_self_le positive.ne'
  have high : (mantissa : ℝ) < 2 ^ (mantissa.log2 + 1) := by
    exact_mod_cast Nat.lt_log2_self
  unfold totalExponent
  constructor
  · rw [show (mantissa.log2 + 1 + e - 1 : ℤ) = mantissa.log2 + e by ring,
      zpow_add₀ two_ne_zero, zpow_natCast]
    exact mul_le_mul_of_nonneg_right low scale.le
  · rw [zpow_add₀ two_ne_zero, ← Nat.cast_add_one, zpow_natCast]
    exact mul_lt_mul_of_pos_right high scale

/-- A mantissa of zero shows the unit of a number that is too small to have all bits. -/
theorem targetExponent_of_zero {e : ℤ} (positive : 0 < x) (below : x < 2 ^ e)
    (least : e ≤ S.minExponent) :
    S.targetExponent (totalExponent 0 e) = unitExponent S x := by
  have log := (Int.lt_zpow_iff_log_lt one_lt_two positive).mp (by exact_mod_cast below)
  unfold Format.targetExponent totalExponent unitExponent Format.mantissaBits
  rw [Nat.log2_zero]
  omega

/-- A quotient is computed to all bits that it has, and told of the rest. -/
private theorem divCore_spec {mantissa mantissa' : ℕ} {e e' : ℤ} (positive : 0 < mantissa)
    (positive' : 0 < mantissa') (sign : Sign) :
    let core := divCore S mantissa e mantissa' e'
    Finite S (roundWithAccuracy S sign core.1 core.2.1 core.2.2) ∧
      real (roundWithAccuracy S sign core.1 core.2.1 core.2.2) =
        signed sign (magnitude S (mantissa * 2 ^ e / (mantissa' * 2 ^ e'))) := by
  obtain ⟨low, -⟩ := totalExponent_bounds positive e
  obtain ⟨low', high'⟩ := totalExponent_bounds positive' e'
  have above' : (0 : ℝ) < mantissa' * 2 ^ e' := (zpow_pos zero_lt_two _).trans_le low'
  unfold divCore
  generalize totalExponent mantissa e = t at low ⊢
  generalize totalExponent mantissa' e' = t' at low' high' ⊢
  generalize ratio_eq : (mantissa * 2 ^ e / (mantissa' * 2 ^ e') : ℝ) = ratio
  have least : (2 : ℝ) ^ (t - t' - 1) < ratio := by
    rw [← ratio_eq, lt_div_iff₀ above']
    calc (2 ^ (t - t' - 1) * (mantissa' * 2 ^ e') : ℝ) < 2 ^ (t - t' - 1) * 2 ^ t' :=
          mul_lt_mul_of_pos_left high' (zpow_pos zero_lt_two _)
      _ = 2 ^ (t - 1) := by
          rw [← zpow_add₀ two_ne_zero]
          congr 1
          ring
      _ ≤ mantissa * 2 ^ e := low
  have above : 0 < ratio := (zpow_pos zero_lt_two _).trans least
  have log : t - t' - 1 ≤ Int.log 2 ratio :=
    (Int.zpow_le_iff_le_log one_lt_two above).mp (by exact_mod_cast least.le)
  have target_le : min (e - e') (S.targetExponent (t - t')) ≤ e - e' ∧
      min (e - e') (S.targetExponent (t - t')) ≤ max (t - t' - S.mantissaBits) S.minExponent := by
    unfold Format.targetExponent
    omega
  generalize min (e - e') (S.targetExponent (t - t')) = target at target_le ⊢
  obtain ⟨shift, shift_eq⟩ := Int.eq_ofNat_of_zero_le (by omega : 0 ≤ e - e' - target)
  have value : ((mantissa <<< shift : ℕ) / mantissa' * 2 ^ target : ℝ) = ratio := by
    rw [← ratio_eq, Nat.shiftLeft_eq, show e = shift + target + e' by omega,
      zpow_add₀ two_ne_zero, zpow_add₀ two_ne_zero, zpow_natCast]
    push_cast
    field_simp
  have tells := tells_div (mantissa <<< shift) positive'
  have fine : target ≤ unitExponent S ratio := by
    unfold unitExponent
    omega
  have unit : S.targetExponent (totalExponent (mantissa <<< shift / mantissa') target) =
      unitExponent S ratio := by
    rcases (mantissa <<< shift / mantissa').eq_zero_or_pos with zero | quotient
    · -- No digit of the quotient is left, which happens only below the least unit.
      have below : ratio < 2 ^ target := by
        have high := tells.bounds.2
        rw [zero, Nat.cast_zero, zero_add] at high
        rw [← value]
        exact mul_lt_of_lt_one_left (zpow_pos zero_lt_two _) high
      have order : t - t' - 1 < target :=
        (zpow_lt_zpow_iff_right₀ one_lt_two).mp (least.trans below)
      rw [zero]
      refine targetExponent_of_zero above below ?_
      unfold Format.mantissaBits at target_le
      omega
    · rw [← value]
      exact targetExponent_eq quotient tells.bounds.1 tells.bounds.2 target
  simp only [shift_eq, Int.toNat_natCast]
  rw [← value] at unit fine above ⊢
  exact roundWithAccuracy_of_unit tells above unit fine sign

/-- The quotient of two finite floats is the rounded quotient of their numbers. -/
theorem div_spec {u v : UnpackedFloat} (first : Finite S u) (second : Finite S v)
    (divisor : real v ≠ 0) :
    Finite S (UnpackedFloat.div S u v) ∧
      real (UnpackedFloat.div S u v) = rounded S (real u / real v) := by
  cases v with
  | infinity sign => cases second
  | notANumber => cases second
  | zero sign => exact absurd rfl divisor
  | finite sign' mantissa' e' positive' =>
    cases u with
    | infinity sign => cases first
    | notANumber => cases first
    | zero sign =>
      refine ⟨trivial, ?_⟩
      rw [real, zero_div, rounded, if_neg (lt_irrefl _), magnitude_zero]
      rfl
    | finite sign mantissa e positive =>
      have above : (0 : ℝ) < mantissa * 2 ^ e / (mantissa' * 2 ^ e') := by positivity
      have ratio : real (.finite sign mantissa e positive) /
          real (.finite sign' mantissa' e' positive') =
            signed (sign / sign') (mantissa * 2 ^ e / (mantissa' * 2 ^ e')) :=
        (signed_div ..).symm
      rw [ratio, rounded_signed above.le]
      exact divCore_spec positive positive' (sign / sign')

/-- The whole part of a square root, and what the rest of the square tells of it. -/
theorem tells_sqrt {n root : ℕ} (low : root * root ≤ n) (high : n < (root + 1) * (root + 1)) :
    Tells root (√n) (if n - root * root = 0 then .exact
      else .inexact (if n - root * root ≤ root then .lt else .gt)) := by
  have below : √(n : ℝ) < root + 1 := by
    rw [Real.sqrt_lt' (by positivity), sq]
    exact_mod_cast high
  split_ifs with whole less
  · have square : (n : ℝ) = root * root := by exact_mod_cast (by omega : n = root * root)
    rw [Tells, square, Real.sqrt_mul_self root.cast_nonneg]
  · have above : (root * root + 1 : ℝ) ≤ n := by exact_mod_cast (by omega : root * root + 1 ≤ n)
    have within : (n : ℝ) ≤ root * root + root := by
      exact_mod_cast (by omega : n ≤ root * root + root)
    constructor
    · exact Real.lt_sqrt_of_sq_lt (by linarith [sq (root : ℝ)])
    · rw [Real.sqrt_lt' (by positivity)]
      linarith [sq ((root : ℝ) + 1 / 2)]
  · have above : (root * root + root + 1 : ℝ) ≤ n := by
      exact_mod_cast (by omega : root * root + root + 1 ≤ n)
    exact ⟨Real.lt_sqrt_of_sq_lt (by linarith [sq ((root : ℝ) + 1 / 2)]), below⟩

/-- A square root is computed to all bits and told of the rest. -/
private theorem sqrtCore_spec {mantissa : ℕ} {e : ℤ} (positive : 0 < mantissa) :
    let core := sqrtCore S mantissa e
    Finite S (roundWithAccuracy S .positive core.1 core.2.1 core.2.2) ∧
      real (roundWithAccuracy S .positive core.1 core.2.1 core.2.2) =
        magnitude S (√(mantissa * 2 ^ e)) := by
  obtain ⟨low, -⟩ := totalExponent_bounds positive e
  have above : (0 : ℝ) < mantissa * 2 ^ e := (zpow_pos zero_lt_two _).trans_le low
  unfold sqrtCore
  generalize totalExponent mantissa e = t at low ⊢
  have target_le : min (e.ediv 2) (S.targetExponent ((t + 1).ediv 2)) ≤ e / 2 ∧
      min (e.ediv 2) (S.targetExponent ((t + 1).ediv 2)) ≤
        max ((t + 1) / 2 - S.mantissaBits) S.minExponent := ⟨min_le_left _ _, min_le_right _ _⟩
  generalize min (e.ediv 2) (S.targetExponent ((t + 1).ediv 2)) = target at target_le ⊢
  obtain ⟨shift, shift_eq⟩ := Int.eq_ofNat_of_zero_le (by omega : 0 ≤ e - 2 * target)
  have value : (√(mantissa <<< shift : ℕ) * 2 ^ target : ℝ) = √(mantissa * 2 ^ e) := by
    have square : (mantissa * 2 ^ e : ℝ) = (mantissa <<< shift : ℕ) * (2 ^ target) ^ 2 := by
      rw [Nat.shiftLeft_eq, show e = shift + (target + target) by omega, zpow_add₀ two_ne_zero,
        zpow_add₀ two_ne_zero, zpow_natCast]
      push_cast
      ring
    rw [square, Real.sqrt_mul (Nat.cast_nonneg _), Real.sqrt_sq (zpow_nonneg zero_le_two _)]
  have least : (2 : ℝ) ^ ((t + 1) / 2 - 1) ≤ √(mantissa * 2 ^ e) := by
    apply Real.le_sqrt_of_sq_le
    rw [← zpow_natCast, ← zpow_mul]
    exact (zpow_le_zpow_right₀ one_le_two (by push_cast; omega)).trans low
  have log : (t + 1) / 2 - 1 ≤ Int.log 2 √(mantissa * 2 ^ e) :=
    (Int.zpow_le_iff_le_log one_lt_two (Real.sqrt_pos.mpr above)).mp (by exact_mod_cast least)
  have root : 0 < (mantissa <<< shift).sqrt := by
    rw [Nat.sqrt_pos, Nat.shiftLeft_eq]
    positivity
  have tells := tells_sqrt (mantissa <<< shift).sqrt_le (mantissa <<< shift).lt_succ_sqrt
  have unit := targetExponent_eq (S := S) root tells.bounds.1 tells.bounds.2 target
  have fine : target ≤ S.targetExponent (totalExponent (mantissa <<< shift).sqrt target) := by
    rw [unit, value]
    unfold unitExponent
    omega
  simp only [shift_eq, Int.toNat_natCast]
  rw [← value]
  exact roundWithAccuracy_spec tells root fine .positive

/-- The square root of a finite float that is not negative is the rounded one of its number. -/
theorem sqrt_spec {u : UnpackedFloat} (finite : Finite S u) (nonneg : 0 ≤ real u) :
    Finite S (UnpackedFloat.sqrt S u) ∧ real (UnpackedFloat.sqrt S u) = rounded S √(real u) := by
  cases u with
  | infinity sign => cases finite
  | notANumber => cases finite
  | zero sign =>
    refine ⟨trivial, ?_⟩
    rw [real, Real.sqrt_zero, rounded, if_neg (lt_irrefl _), magnitude_zero]
    rfl
  | finite sign mantissa e positive =>
    cases sign with
    | negative =>
      have above : (0 : ℝ) < mantissa * 2 ^ e := by positivity
      exact absurd nonneg (not_le.mpr (neg_neg_of_pos above))
    | positive =>
      rw [rounded, if_neg (not_lt.mpr (Real.sqrt_nonneg _))]
      exact sqrtCore_spec positive

/-- A number in decimal notation is rounded to the bits of the format, unless its exponent alone
shows that it is too great or too small for them. -/
theorem ofScientific_spec {n : ℕ} {e : ℤ} (high : e ≤ 2 ^ S.exponentBits)
    (low : -(2 ^ S.exponentBits + n.log2) ≤ e) :
    Finite S (UnpackedFloat.ofScientific S n e) ∧
      real (UnpackedFloat.ofScientific S n e) = rounded S (n * 10 ^ e) := by
  have nonneg : (0 : ℝ) ≤ n * 10 ^ e := by positivity
  rw [rounded, if_neg (not_lt.mpr nonneg)]
  unfold UnpackedFloat.ofScientific
  split_ifs with zero great small whole
  · rw [zero, Nat.cast_zero, zero_mul, magnitude_zero]
    exact ⟨trivial, rfl⟩
  · exact absurd high (not_le.mpr great)
  · exact absurd low (not_le.mpr small)
  · obtain ⟨k, rfl⟩ := Int.eq_ofNat_of_zero_le whole
    have positive := Nat.pos_of_ne_zero zero
    have power : 0 < 10 ^ k := Nat.pow_pos (by decide)
    have digits : 0 < n <<< S.mantissaBits * 10 ^ k := by
      rw [Nat.shiftLeft_eq]
      exact Nat.mul_pos (Nat.mul_pos positive (Nat.two_pow_pos _)) power
    have bits : S.mantissaBits ≤ (n <<< S.mantissaBits * 10 ^ k).log2 := by
      rw [Nat.le_log2 digits.ne', Nat.shiftLeft_eq]
      exact (Nat.le_mul_of_pos_left _ positive).trans (Nat.le_mul_of_pos_right _ power)
    have exact : Tells (n <<< S.mantissaBits * 10 ^ k)
        ((n <<< S.mantissaBits * 10 ^ k : ℕ) : ℝ) .exact := rfl
    have spec := roundWithAccuracy_spec (S := S) (e := -S.mantissaBits) exact digits
      (by unfold Format.targetExponent totalExponent; omega) .positive
    have value : ((n <<< S.mantissaBits * 10 ^ k : ℕ) : ℝ) * 2 ^ (-(S.mantissaBits : ℤ)) =
        n * 10 ^ (k : ℤ) := by
      rw [zpow_neg, zpow_natCast, zpow_natCast, Nat.shiftLeft_eq]
      push_cast
      field_simp
    rw [value] at spec
    simp only [UnpackedFloat.mul, Int.toNat_natCast, add_zero]
    exact spec
  · have positive := Nat.pos_of_ne_zero zero
    have power : 0 < 10 ^ (-e).toNat := Nat.pow_pos (by decide)
    have value : (n * 2 ^ (0 : ℤ) / ((10 ^ (-e).toNat : ℕ) * 2 ^ (0 : ℤ)) : ℝ) = n * 10 ^ e := by
      rw [zpow_zero, mul_one, mul_one, Nat.cast_pow, Nat.cast_ofNat, ← zpow_natCast,
        Int.toNat_of_nonneg (by omega), zpow_neg, div_inv_eq_mul]
    rw [← value]
    exact divCore_spec positive power .positive

/-- Floats that are not too great are stored as they are. -/
theorem unpack_pack_of_lt (room : S.minExponent ≤ greatestExponent S) {u : UnpackedFloat}
    (finite : Finite S u) (small : |real u| < 2 ^ (S.exponentBias + 1)) :
    UnpackedFloat.unpack S (UnpackedFloat.pack S u) = u := by
  rw [unpack_pack finite]
  cases u with
  | infinity sign => cases finite
  | notANumber => cases finite
  | zero sign => rfl
  | finite sign mantissa e positive =>
    have size : |real (.finite sign mantissa e positive)| = mantissa * 2 ^ e := by
      have nonneg : (0 : ℝ) ≤ mantissa * 2 ^ e := by positivity
      cases sign with
      | negative => exact (abs_neg _).trans (abs_of_nonneg nonneg)
      | positive => exact abs_of_nonneg nonneg
    rw [size] at small
    exact if_pos ((le_greatestExponent_iff room finite).mpr small)

/-- The digits before the point of a number that is not negative are its floor. -/
theorem roundToInt_positive (mantissa : ℕ) (e : ℤ) :
    roundToInt .positive mantissa e = ⌊(mantissa * 2 ^ e : ℝ)⌋ := by
  obtain ⟨value, lower⟩ := decreaseExponent_spec mantissa e 0
  unfold roundToInt
  generalize decreaseExponent mantissa e 0 = shifted at value lower
  obtain ⟨digits, e'⟩ := shifted
  obtain ⟨count, rfl⟩ := Int.exists_eq_neg_ofNat (lower.trans_le (min_le_right e 0))
  have exact : Tells digits digits .exact := rfl
  have cut := (exact.stands.shiftRight count).bounds
  rw [div_eq_mul_inv, ← zpow_natCast, ← zpow_neg, value] at cut
  simp only [shiftToExponent, zero_sub, neg_neg, Int.toNat_natCast]
  exact (Int.floor_eq_iff.mpr (by exact_mod_cast cut)).symm

theorem toInt_of_nonneg {u : UnpackedFloat} (finite : Finite S u) (nonneg : 0 ≤ real u)
    (low high : ℤ) : u.toInt low high = ⌊real u⌋ := by
  cases u with
  | infinity sign => cases finite
  | notANumber => cases finite
  | zero sign => exact Int.floor_zero.symm
  | finite sign mantissa e positive =>
    cases sign with
    | positive => exact roundToInt_positive mantissa e
    | negative =>
      have above : (0 : ℝ) < mantissa * 2 ^ e := by positivity
      exact absurd nonneg (not_le.mpr (neg_neg_of_pos above))

end Rounding
end VectorPaint
