import VectorPaint.Proofs.Scalar.Nearest

/-!
Floats taken apart into sign, mantissa and exponent. The bits that rounding keeps of what it has cut
off tell on which side of the half the rest lies, so rounding to a format is rounding of the real
number, and the difference of two floats is the rounded difference of what they stand for.
-/
namespace VectorPaint.Rounding

open Float.Model Float.Model.UnpackedFloat

variable {S : Format}

/-- The number lies at a mantissa, or above it by less than one and on the told side of the half. -/
def Tells (mantissa : ℕ) (x : ℝ) : Accuracy → Prop
  | .exact => x = mantissa
  | .inexact .lt => mantissa < x ∧ x < mantissa + 1 / 2
  | .inexact .eq => x = mantissa + 1 / 2
  | .inexact .gt => mantissa + 1 / 2 < x ∧ x < mantissa + 1

theorem Tells.bounds {mantissa : ℕ} {x : ℝ} {accuracy : Accuracy}
    (tells : Tells mantissa x accuracy) : (mantissa : ℝ) ≤ x ∧ x < mantissa + 1 := by
  rcases accuracy with _ | (_ | _ | _) <;> simp only [Tells] at tells <;> constructor <;> linarith

/-- What is told is enough to round to the nearest whole number. -/
theorem Tells.roundToNearestEven {mantissa : ℕ} {x : ℝ} {accuracy : Accuracy}
    (tells : Tells mantissa x accuracy) :
    (accuracy.roundToNearestEven mantissa : ℤ) = nearest x := by
  have floor : ⌊x⌋ = mantissa := Int.floor_eq_iff.mpr tells.bounds
  have rest : Int.fract x = x - mantissa := by rw [Int.fract, floor, Int.cast_natCast]
  unfold nearest
  rw [floor, rest]
  rcases accuracy with _ | (_ | _ | _) <;> simp only [Tells] at tells <;>
    simp only [Accuracy.roundToNearestEven]
  · rw [if_pos (by linarith)]
  · rw [if_pos (by linarith)]
  · rw [if_neg (by linarith), if_neg (by linarith)]
    norm_cast
  · rw [if_neg (by linarith), if_pos (by linarith)]
    norm_cast

/-- The mantissa and the bits after it belong to the number. -/
def Stands (em : ExtendedMantissa) (x : ℝ) : Prop := Tells em.mantissa x em.accuracy

theorem Tells.stands {mantissa : ℕ} {x : ℝ} {accuracy : Accuracy}
    (tells : Tells mantissa x accuracy) :
    Stands (ExtendedMantissa.ofMantissaAndAccuracy mantissa accuracy) x := by
  rcases accuracy with _ | (_ | _ | _) <;> exact tells

namespace Stands

variable {em : ExtendedMantissa} {x : ℝ}

theorem shiftRightOne (stands : Stands em x) : Stands em.shiftRightOne (x / 2) := by
  obtain ⟨mantissa, roundBit, stickyBit⟩ := em
  have halves : (mantissa : ℝ) = 2 * (mantissa / 2 : ℕ) + (mantissa % 2 : ℕ) := by
    exact_mod_cast (Nat.div_add_mod mantissa 2).symm
  unfold Stands ExtendedMantissa.shiftRightOne at *
  rcases Nat.mod_two_eq_zero_or_one mantissa with parity | parity <;>
    cases roundBit <;> cases stickyBit <;>
    simp [Tells, ExtendedMantissa.accuracy, parity] at stands halves ⊢ <;>
    first | (constructor <;> linarith) | linarith

theorem shiftRight (stands : Stands em x) (count : ℕ) : Stands (em >>> count) (x / 2 ^ count) := by
  change Stands (count.repeat ExtendedMantissa.shiftRightOne em) _
  induction count with
  | zero => simpa [Nat.repeat] using stands
  | succ count ih =>
    rw [Nat.repeat, pow_succ, ← div_div]
    exact ih.shiftRightOne

end Stands

/-- Shifting to the unit of a number keeps what belongs to it. -/
theorem Tells.shiftToTargetExponent {mantissa : ℕ} {x : ℝ} {accuracy : Accuracy} {e : ℤ}
    (tells : Tells mantissa x accuracy)
    (unit : S.targetExponent (totalExponent mantissa e) = unitExponent S (x * 2 ^ e))
    (fine : e ≤ unitExponent S (x * 2 ^ e)) :
    let shifted := shiftToTargetExponent S mantissa e accuracy
    shifted.2 = unitExponent S (x * 2 ^ e) ∧
      Stands shifted.1 (x * 2 ^ e / 2 ^ unitExponent S (x * 2 ^ e)) := by
  simp only [UnpackedFloat.shiftToTargetExponent, shiftToExponent]
  rw [unit]
  generalize unitExponent S (x * 2 ^ e) = u at fine ⊢
  obtain ⟨count, rfl⟩ := Int.le.dest fine
  have scale : x / 2 ^ count = x * 2 ^ e / 2 ^ (e + count) := by
    rw [zpow_add₀ two_ne_zero, zpow_natCast]
    field_simp
  rw [add_sub_cancel_left, Int.toNat_natCast, ← scale]
  exact ⟨rfl, tells.stands.shiftRight count⟩

/-- A float that is finite and has the mantissa and the exponent of a format, save that there is no
greatest exponent. -/
def Finite (S : Format) : UnpackedFloat → Prop
  | .zero _ => True
  | .finite _ mantissa e _ => Fits S mantissa e
  | .infinity _ => False
  | .notANumber => False

/-- Puts a sign before a number. -/
def signed (sign : Sign) (x : ℝ) : ℝ :=
  match sign with
  | .negative => -x
  | .positive => x

/-- The real number of a finite float; it is not used for others. -/
noncomputable def real : UnpackedFloat → ℝ
  | .zero _ => 0
  | .finite sign mantissa e _ => signed sign (mantissa * 2 ^ e)
  | .infinity _ => 0
  | .notANumber => 0

/-- Rounding may carry into a further bit, which is then shifted out again without loss. -/
private theorem carry {mantissa : ℕ} {e : ℤ} (bounded : mantissa ≤ 2 ^ S.mantissaBits)
    (least : S.minExponent ≤ e)
    (full : 2 ^ S.mantissaBitsWithoutImplicit ≤ mantissa ∨ e = S.minExponent) :
    let shifted := shiftToTargetExponent S mantissa e .exact
    (shifted.1.mantissa = 0 ∨ Fits S shifted.1.mantissa shifted.2) ∧
      (shifted.1.mantissa * 2 ^ shifted.2 : ℝ) = mantissa * 2 ^ e := by
  simp only [shiftToTargetExponent, shiftToExponent]
  rcases bounded.lt_or_eq with room | rfl
  · have log : mantissa.log2 < S.mantissaBits := by
      rcases mantissa.eq_zero_or_pos with rfl | positive
      · exact Nat.add_pos_left one_pos _
      · exact (Nat.log2_lt positive.ne').mpr room
    have stay : (S.targetExponent (totalExponent mantissa e) - e).toNat = 0 := by
      unfold Format.targetExponent totalExponent
      omega
    rw [stay]
    change (mantissa = 0 ∨ Fits S mantissa (e + 0)) ∧ (mantissa * 2 ^ (e + 0) : ℝ) = _
    rw [add_zero]
    exact ⟨mantissa.eq_zero_or_pos.imp_right fun positive => ⟨positive, room, least, full⟩, rfl⟩
  · -- Only the power of two with one bit too many is shifted, and its last bit is zero.
    have step : (S.targetExponent (totalExponent (2 ^ S.mantissaBits) e) - e).toNat = 1 := by
      unfold Format.targetExponent totalExponent
      rw [Nat.log2_two_pow]
      omega
    have half : 2 ^ S.mantissaBits / 2 = 2 ^ S.mantissaBitsWithoutImplicit := by
      rw [Format.mantissaBits, pow_add, pow_one, Nat.mul_div_cancel_left _ two_pos]
    rw [step]
    change (2 ^ S.mantissaBits / 2 = 0 ∨ Fits S (2 ^ S.mantissaBits / 2) (e + 1)) ∧
      ((2 ^ S.mantissaBits / 2 : ℕ) * 2 ^ (e + 1) : ℝ) = _
    rw [half]
    refine ⟨.inr ⟨Nat.two_pow_pos _, ?_, by omega, .inl le_rfl⟩, ?_⟩
    · exact Nat.pow_lt_pow_right one_lt_two (by unfold Format.mantissaBits; omega)
    · push_cast
      rw [Format.mantissaBits, pow_add, zpow_add₀ two_ne_zero]
      ring

/-- A mantissa with a rest is rounded like the number it belongs to, if its bits show where the
number has its unit. -/
theorem roundWithAccuracy_of_unit {mantissa : ℕ} {x : ℝ} {accuracy : Accuracy} {e : ℤ}
    (tells : Tells mantissa x accuracy) (above : 0 < x * 2 ^ e)
    (unit : S.targetExponent (totalExponent mantissa e) = unitExponent S (x * 2 ^ e))
    (fine : e ≤ unitExponent S (x * 2 ^ e)) (sign : Sign) :
    Finite S (roundWithAccuracy S sign mantissa e accuracy) ∧
      real (roundWithAccuracy S sign mantissa e accuracy) =
        signed sign (magnitude S (x * 2 ^ e)) := by
  obtain ⟨unit, stands⟩ := tells.shiftToTargetExponent unit fine
  generalize first_eq : shiftToTargetExponent S mantissa e accuracy = first at unit stands
  have rounded := stands.roundToNearestEven
  change (first.1.roundedMantissa : ℤ) = _ at rounded
  have bounded : first.1.roundedMantissa ≤ 2 ^ S.mantissaBits := by
    have := nearest_units_le S (x * 2 ^ e)
    rw [← rounded] at this
    exact_mod_cast this
  have least : S.minExponent ≤ first.2 := unit ▸ le_max_right ..
  have full : 2 ^ S.mantissaBitsWithoutImplicit ≤ first.1.roundedMantissa ∨
      first.2 = S.minExponent := by
    rcases least.lt_or_eq with higher | same
    · left
      have := le_nearest_units above (unit ▸ higher)
      rw [← rounded] at this
      exact_mod_cast this
    · exact .inr same.symm
  obtain ⟨fits, value⟩ := carry bounded least full
  have kept : (first.1.roundedMantissa * 2 ^ first.2 : ℝ) = magnitude S (x * 2 ^ e) := by
    rw [magnitude, ← rounded, unit, Int.cast_natCast]
  unfold roundWithAccuracy
  simp only [first_eq]
  split
  · rename_i zero
    rw [zero, Nat.cast_zero, zero_mul, kept] at value
    refine ⟨trivial, ?_⟩
    rw [← value]
    cases sign <;> simp [real, signed]
  · rename_i nonzero
    exact ⟨fits.resolve_left nonzero, congrArg (signed sign) (value.trans kept)⟩

/-- The bits of a mantissa that is not zero show where its number has its unit. -/
theorem roundWithAccuracy_spec {mantissa : ℕ} {x : ℝ} {accuracy : Accuracy} {e : ℤ}
    (tells : Tells mantissa x accuracy) (positive : 0 < mantissa)
    (fine : e ≤ S.targetExponent (totalExponent mantissa e)) (sign : Sign) :
    Finite S (roundWithAccuracy S sign mantissa e accuracy) ∧
      real (roundWithAccuracy S sign mantissa e accuracy) =
        signed sign (magnitude S (x * 2 ^ e)) := by
  have unit := targetExponent_eq (S := S) positive tells.bounds.1 tells.bounds.2 e
  have above : 0 < x := (Nat.cast_pos.mpr positive).trans_le tells.bounds.1
  exact roundWithAccuracy_of_unit tells (mul_pos above (zpow_pos zero_lt_two e)) unit
    (fine.trans_eq unit) sign

theorem decreaseExponent_spec (mantissa : ℕ) (e target : ℤ) :
    ((decreaseExponent mantissa e target).1 * 2 ^ (decreaseExponent mantissa e target).2 : ℝ) =
        mantissa * 2 ^ e ∧
      (decreaseExponent mantissa e target).2 = min e target := by
  simp only [decreaseExponent, Nat.shiftLeft_eq]
  constructor
  · push_cast
    rw [mul_assoc, ← zpow_natCast, ← zpow_add₀ two_ne_zero]
    congr 2
    omega
  · omega

theorem round_spec {mantissa : ℕ} (positive : 0 < mantissa) (e : ℤ) (sign : Sign) :
    Finite S (round S sign mantissa e) ∧
      real (round S sign mantissa e) = signed sign (magnitude S (mantissa * 2 ^ e)) := by
  have unit := targetExponent_eq (S := S) positive le_rfl (lt_add_one _) e
  unfold UnpackedFloat.round
  rw [unit]
  obtain ⟨value, lower⟩ := decreaseExponent_spec mantissa e (unitExponent S (mantissa * 2 ^ e))
  simp only
  generalize decreaseExponent mantissa e (unitExponent S (mantissa * 2 ^ e)) = shifted at *
  have above : (0 : ℝ) < shifted.1 := by
    have product : (0 : ℝ) < shifted.1 * 2 ^ shifted.2 :=
      value ▸ mul_pos (Nat.cast_pos.mpr positive) (zpow_pos zero_lt_two e)
    exact pos_of_mul_pos_left product (zpow_pos zero_lt_two _).le
  have positive' := Nat.cast_pos.mp above
  have unit' := targetExponent_eq (S := S) positive' le_rfl (lt_add_one _) shifted.2
  rw [value] at unit'
  have exact : Tells shifted.1 shifted.1 .exact := rfl
  rw [← value]
  exact roundWithAccuracy_spec exact positive' (by omega) sign

theorem normalize_spec (mantissa : ℤ) (e : ℤ) (zeroSign : Sign) :
    Finite S (normalize S mantissa e zeroSign) ∧
      real (normalize S mantissa e zeroSign) = rounded S (mantissa * 2 ^ e) := by
  have scale : (0 : ℝ) < 2 ^ e := zpow_pos zero_lt_two e
  unfold UnpackedFloat.normalize rounded
  rcases lt_trichotomy mantissa 0 with negative | rfl | positive
  · have below : (mantissa * 2 ^ e : ℝ) < 0 :=
      mul_neg_of_neg_of_pos (Int.cast_lt_zero.mpr negative) scale
    have turned : ((-mantissa).toNat : ℝ) = -mantissa := by
      exact_mod_cast Int.toNat_of_nonneg (by omega)
    rw [Int.compare_eq_lt.mpr negative, if_pos below, ← neg_mul, ← turned]
    exact round_spec (by omega) e .negative
  · rw [Int.compare_eq_eq.mpr rfl, Int.cast_zero, zero_mul, if_neg (lt_irrefl _), magnitude_zero]
    exact ⟨trivial, rfl⟩
  · have above : ¬ (mantissa * 2 ^ e : ℝ) < 0 :=
      not_lt.mpr (mul_pos (Int.cast_pos.mpr positive) scale).le
    have same : (mantissa.toNat : ℝ) = mantissa := by
      exact_mod_cast Int.toNat_of_nonneg positive.le
    rw [Int.compare_eq_gt.mpr positive, if_neg above, ← same]
    exact round_spec (by omega) e .positive

theorem rounded_signed {x : ℝ} (nonneg : 0 ≤ x) (sign : Sign) :
    rounded S (signed sign x) = signed sign (magnitude S x) := by
  cases sign with
  | positive => exact if_neg (not_lt.mpr nonneg)
  | negative =>
    rcases nonneg.eq_or_lt with rfl | positive
    · simp [rounded, signed, magnitude_zero]
    · simp [rounded, signed, positive]

/-- The numbers of a format are not changed by rounding. -/
theorem rounded_real {u : UnpackedFloat} (finite : Finite S u) : rounded S (real u) = real u := by
  cases u with
  | zero sign => exact (if_neg (lt_irrefl _)).trans (magnitude_zero S)
  | finite sign mantissa e positive =>
    have nonneg : (0 : ℝ) ≤ mantissa * 2 ^ e := by positivity
    rw [real, rounded_signed nonneg, Fits.magnitude_eq finite]
  | infinity sign => cases finite
  | notANumber => cases finite

theorem real_neg (u : UnpackedFloat) : real u.neg = -real u := by
  cases u with
  | finite sign mantissa e positive => cases sign <;> simp [UnpackedFloat.neg, real, signed]
  | _ => simp [UnpackedFloat.neg, real]

theorem finite_neg {u : UnpackedFloat} (finite : Finite S u) : Finite S u.neg := by
  cases u with
  | _ => exact finite

/-- A mantissa that is shifted to a smaller exponent, with its sign. -/
private theorem apply_decreaseExponent (sign : Sign) (mantissa : ℕ) {e target : ℤ}
    (smaller : target ≤ e) :
    (sign.apply (decreaseExponent mantissa e target).1 * 2 ^ target : ℝ) =
      signed sign (mantissa * 2 ^ e) := by
  obtain ⟨value, lower⟩ := decreaseExponent_spec mantissa e target
  rw [← value, lower, min_eq_right smaller]
  cases sign <;> simp [Sign.apply, signed]

/-- The difference of two finite floats is the rounded difference of their numbers. -/
theorem sub_spec {u v : UnpackedFloat} (first : Finite S u) (second : Finite S v) :
    Finite S (UnpackedFloat.sub S u v) ∧
      real (UnpackedFloat.sub S u v) = rounded S (real u - real v) := by
  cases u with
  | infinity sign => cases first
  | notANumber => cases first
  | zero sign =>
    have fromZero : rounded S (real (.zero sign) - real v) = -real v := by
      rw [real, zero_sub, ← real_neg, rounded_real (finite_neg second)]
    cases v with
    | infinity sign' => cases second
    | notANumber => cases second
    | zero sign' =>
      have zeros : UnpackedFloat.sub S (.zero sign) (.zero sign') =
          if sign == -sign' then .zero sign else .zero .positive := rfl
      rw [fromZero, zeros]
      split <;> exact ⟨trivial, neg_zero.symm⟩
    | finite sign' mantissa e positive =>
      rw [fromZero, ← real_neg]
      exact ⟨finite_neg second, rfl⟩
  | finite sign mantissa e positive =>
    cases v with
    | infinity sign' => cases second
    | notANumber => cases second
    | zero sign' =>
      have toZero : real (.zero sign') = 0 := rfl
      rw [toZero, sub_zero, rounded_real first]
      exact ⟨first, rfl⟩
    | finite sign' mantissa' e' positive' =>
      have spec := normalize_spec (S := S)
        (sign.apply (decreaseExponent mantissa e (min e e')).1 -
          sign'.apply (decreaseExponent mantissa' e' (min e e')).1) (min e e') .positive
      rw [Int.cast_sub, sub_mul, apply_decreaseExponent sign mantissa (min_le_left e e'),
        apply_decreaseExponent sign' mantissa' (min_le_right e e')] at spec
      exact spec

end VectorPaint.Rounding
