import VectorPaint.Proofs.Scalar.Packed
import VectorPaint.Scalar.Binary64

/-!
Binary floating point of 64 bits and its order. Floats are compared like what they stand for, an
indeterminate one with nothing; taking a finite float away and rounding up to a whole number both
keep the order. So positions further to the right never give pixels further to the left, whatever
was lost to rounding or to overflow before.
-/
namespace VectorPaint.Binary64

open Float.Model Float.Model.UnpackedFloat Rounding

/-- The float is not indeterminate. -/
def Determinate (x : Float) : Prop := x.toModel.unpack ≠ .notANumber

/-- What a determinate float stands for, in the real numbers with an infinite one at either end. -/
noncomputable def number (x : Float) : EReal := Rounding.value x.toModel.unpack

variable {a b c : Float}

theorem Determinate.number_unpack (determinate : Determinate a) :
    Number Format.binary64 a.toModel.unpack :=
  Rounding.number_unpack _ determinate

theorem le_iff_number (first : Determinate a) (second : Determinate b) :
    a ≤ b ↔ number a ≤ number b := by
  have models : a ≤ b ↔ UnpackedFloat.le a.toModel.unpack b.toModel.unpack := by
    change decide (a.toModel ≤ b.toModel) = true ↔ _
    rw [decide_eq_true_iff]
    rfl
  rw [models, Rounding.le_iff first.number_unpack second.number_unpack]
  rfl

theorem lt_iff_number (first : Determinate a) (second : Determinate b) :
    a < b ↔ number a < number b := by
  have models : a < b ↔ UnpackedFloat.lt a.toModel.unpack b.toModel.unpack := by
    change decide (a.toModel < b.toModel) = true ↔ _
    rw [decide_eq_true_iff]
    rfl
  rw [models, Rounding.lt_iff first.number_unpack second.number_unpack]
  rfl

theorem beq_iff_number (first : Determinate a) (second : Determinate b) :
    (a == b) = true ↔ number a = number b :=
  Rounding.beq_iff first.number_unpack second.number_unpack

theorem not_le_of_indeterminate (second : ¬ Determinate b) : ¬ a ≤ b := by
  have indeterminate := not_not.mp second
  change ¬ decide (a.toModel ≤ b.toModel) = true
  rw [decide_eq_true_iff]
  change ¬ UnpackedFloat.le a.toModel.unpack b.toModel.unpack = true
  rw [indeterminate]
  cases a.toModel.unpack with
  | infinity sign => cases sign <;> simp [UnpackedFloat.le, UnpackedFloat.compare]
  | _ => simp [UnpackedFloat.le, UnpackedFloat.compare]

theorem not_lt_of_indeterminate (first : ¬ Determinate a) : ¬ a < b := by
  change ¬ decide (a.toModel < b.toModel) = true
  rw [decide_eq_true_iff]
  change ¬ UnpackedFloat.lt a.toModel.unpack b.toModel.unpack = true
  rw [not_not.mp first]
  cases b.toModel.unpack <;> exact Bool.false_ne_true

theorem determinate_of_isFinite (finite : a.isFinite = true) : Determinate a := by
  intro indeterminate
  change UnpackedFloat.isFinite a.toModel.unpack = true at finite
  rw [indeterminate] at finite
  cases finite

theorem beq_self_iff : (a == a) = true ↔ Determinate a := by
  change UnpackedFloat.beq a.toModel.unpack a.toModel.unpack = true ↔ _
  unfold Determinate
  generalize a.toModel.unpack = u
  cases u with
  | notANumber => simp [UnpackedFloat.beq, UnpackedFloat.compare]
  | infinity sign => cases sign <;> exact iff_of_true rfl UnpackedFloat.noConfusion
  | zero sign => simp [UnpackedFloat.beq, UnpackedFloat.compare]
  | finite sign mantissa e positive =>
    cases sign <;> simp [UnpackedFloat.beq, UnpackedFloat.compare]

/-- Indeterminate floats precede all others, which are visited in the order of their numbers. -/
theorem precedes_iff :
    Scalar.precedes a b = true ↔ ¬ Determinate a ∨ Determinate b ∧ number a ≤ number b := by
  unfold Scalar.precedes
  rw [Bool.or_eq_true, Bool.not_eq_true', Bool.eq_false_iff, ne_eq, beq_self_iff,
    decide_eq_true_iff]
  by_cases first : Determinate a
  · by_cases second : Determinate b
    · simp [first, second, le_iff_number first second]
    · simp [first, second, not_le_of_indeterminate second]
  · simp [first]

theorem precedes_total (a b : Float) :
    (Scalar.precedes a b || Scalar.precedes b a) = true := by
  rw [Bool.or_eq_true, precedes_iff, precedes_iff]
  have total := le_total (number a) (number b)
  tauto

theorem precedes_trans (a b c : Float) (first : Scalar.precedes a b = true)
    (second : Scalar.precedes b c = true) : Scalar.precedes a c = true := by
  rw [precedes_iff] at first second ⊢
  rcases first with indeterminate | ⟨determinate, le⟩
  · exact .inl indeterminate
  · obtain ⟨last, le'⟩ := second.resolve_left (not_not.mpr determinate)
    exact .inr ⟨last, le.trans le'⟩

theorem room : Format.binary64.minExponent ≤ greatestExponent Format.binary64 := by
  decide

theorem sub_of_determinate (finite : Finite Format.binary64 c.toModel.unpack)
    (determinate : Determinate a) :
    Determinate (a - c) ∧
      number (a - c) = lowered Format.binary64 (real c.toModel.unpack) (number a) :=
  value_sub room determinate.number_unpack finite

theorem sub_of_indeterminate (indeterminate : ¬ Determinate a) : ¬ Determinate (a - c) := by
  have model : (a - c).toModel.unpack =
      UnpackedFloat.unpack Format.binary64 (UnpackedFloat.pack Format.binary64
        (UnpackedFloat.sub Format.binary64 a.toModel.unpack c.toModel.unpack)) := rfl
  have stays (v : UnpackedFloat) :
      UnpackedFloat.sub Format.binary64 .notANumber v = .notANumber := by
    cases v <;> rfl
  rw [not_not.mp indeterminate, stays] at model
  exact not_not.mpr (model.trans rfl)

/-- The sign bit of a float is set. -/
def isNegative : Sign → Bool
  | .negative => true
  | .positive => false

/-- Reads the value of a float that is taken apart; a zero has the least exponent. -/
def ofUnpacked : UnpackedFloat → Value
  | .notANumber => .nan
  | .infinity sign => .infinite (isNegative sign)
  | .zero sign => .finite (isNegative sign) 0 (-1074)
  | .finite sign mantissa e _ => .finite (isNegative sign) mantissa e

theorem isNegative_ofBitVec (bit : BitVec 1) :
    isNegative (.ofBitVec bit) = decide (bit.toNat = 1) := by
  unfold Sign.ofBitVec
  split
  · rename_i zero
    subst zero
    rfl
  · rename_i nonzero
    have one : bit.toNat = 1 := by
      have := bit.isLt
      rw [← BitVec.toNat_inj, BitVec.toNat_ofNat] at nonzero
      omega
    exact (decide_eq_true one).symm

theorem ofUnpacked_ofFields (sign : Sign) (field fraction : ℕ) :
    ofUnpacked (ofFields Format.binary64 sign field fraction) =
      if field = 2047 then (if fraction = 0 then .infinite (isNegative sign) else .nan)
      else if field = 0 then .finite (isNegative sign) fraction (-1074)
      else .finite (isNegative sign) (fraction + 2 ^ 52) (Int.ofNat field - 1075) := by
  have allSet : field + 1 = 2 ^ 11 ↔ field = 2047 := by omega
  unfold ofFields
  simp only [allSet]
  split_ifs with _ _ _ noFraction
  · rfl
  · rfl
  · rw [noFraction]
    rfl
  · rfl
  · have exponent : Format.minExponent Format.binary64 + field - 1 = Int.ofNat field - 1075 := by
      change -1074 + (field : ℤ) - 1 = field - 1075
      omega
    rw [ofUnpacked, exponent, Nat.add_comm]

/-- Reading the bits of a float gives its value. -/
theorem decode_eq (x : Float) : decode x = ofUnpacked x.toModel.unpack := by
  have bits : x.toBits.toNat < 2 ^ 64 := x.toBits.toBitVec.isLt
  have sign : (@unpackSign Format.binary64 x.toModel.toBits.toBitVec).toNat =
      x.toBits.toNat / 2 ^ 63 % 2 := by
    simp [unpackSign, BitVec.extractLsb_toNat, Nat.shiftRight_eq_div_pow]
    rfl
  have exponent : (@unpackExponent Format.binary64 x.toModel.toBits.toBitVec).toNat =
      x.toBits.toNat / 2 ^ 52 % 2 ^ 11 := by
    simp [unpackExponent, BitVec.extractLsb_toNat, Nat.shiftRight_eq_div_pow]
    rfl
  have mantissa : (@unpackMantissa Format.binary64 x.toModel.toBits.toBitVec).toNat =
      x.toBits.toNat % 2 ^ 52 := by
    simp [unpackMantissa, BitVec.extractLsb_toNat]
    rfl
  have positiveOrOne : x.toBits.toNat / 2 ^ 63 % 2 = x.toBits.toNat / 2 ^ 63 := by omega
  rw [Float.Model.unpack, unpack_eq_ofFields, ofUnpacked_ofFields, isNegative_ofBitVec, sign,
    exponent, mantissa, positiveOrOne]
  rfl

theorem floorScaled_eq (n e : ℤ) : floorScaled n e = ⌊(n * 2 ^ e : ℝ)⌋ := by
  cases e with
  | ofNat k =>
    have whole : (n * 2 ^ (Int.ofNat k) : ℝ) = (n * 2 ^ k : ℤ) := by
      push_cast
      rfl
    rw [whole, Int.floor_intCast]
    rfl
  | negSucc k =>
    have ratio : (n * 2 ^ (Int.negSucc k) : ℝ) = n / (2 ^ (k + 1) : ℕ) := by
      rw [zpow_negSucc]
      push_cast
      rfl
    rw [ratio, Int.floor_div_natCast, Int.floor_intCast, floorScaled, Int.shiftRight_eq_div_pow]

theorem signed_isNegative (sign : Sign) (mantissa : ℕ) :
    ((signed (isNegative sign) mantissa : ℤ) : ℝ) = Rounding.signed sign mantissa := by
  cases sign with
  | positive => exact Int.cast_natCast _
  | negative => exact (Int.cast_neg _).trans (congrArg _ (Int.cast_natCast _))

theorem saturate_mono : Monotone saturate := by
  intro m n le
  unfold saturate leastWhole greatestWhole
  split_ifs <;> omega

theorem saturate_bounds (n : ℤ) : leastWhole ≤ saturate n ∧ saturate n ≤ greatestWhole := by
  unfold saturate leastWhole greatestWhole
  split_ifs <;> omega

/-- What becomes of the number is held within the range of whole numbers. -/
theorem toWhole_of_determinate {round : Bool → ℕ → ℤ → ℤ} {f : ℝ → ℤ}
    (exact : ∀ sign mantissa e, round (isNegative sign) mantissa e =
      f (Rounding.signed sign mantissa * 2 ^ e))
    (determinate : Determinate a) :
    toWhole round a =
      extended leastWhole greatestWhole (fun x => saturate (f x)) (number a) := by
  unfold toWhole number
  rw [decode_eq]
  unfold Determinate at determinate
  generalize a.toModel.unpack = u at determinate
  cases u with
  | notANumber => exact absurd rfl determinate
  | infinity sign =>
    cases sign with
    | negative => exact extended_bot.symm
    | positive => exact extended_top.symm
  | zero sign =>
    simp only [ofUnpacked, exact, Rounding.value, real, extended_coe]
    cases sign <;> simp [Rounding.signed]
  | finite sign mantissa e positive =>
    have product : Rounding.signed sign (mantissa * 2 ^ e) =
        Rounding.signed sign mantissa * 2 ^ e := by
      cases sign with
      | positive => rfl
      | negative => exact (neg_mul _ _).symm
    simp only [ofUnpacked, exact, Rounding.value, real, extended_coe, product]

/-- Rounding down, held within the signed 64-bit range. -/
noncomputable def heldFloor : EReal → ℤ :=
  extended leastWhole greatestWhole fun x => saturate ⌊x⌋

/-- Rounding up, held within the signed 64-bit range. -/
noncomputable def heldCeil : EReal → ℤ :=
  extended leastWhole greatestWhole fun x => saturate ⌈x⌉

theorem heldFloor_mono : Monotone heldFloor :=
  extended_mono (fun _ _ le => saturate_mono (Int.floor_mono le))
    (fun _ => (saturate_bounds _).1) (fun _ => (saturate_bounds _).2)

theorem heldCeil_mono : Monotone heldCeil :=
  extended_mono (fun _ _ le => saturate_mono (Int.ceil_mono le))
    (fun _ => (saturate_bounds _).1) (fun _ => (saturate_bounds _).2)

theorem floor_of_determinate (determinate : Determinate a) : floor a = heldFloor (number a) :=
  toWhole_of_determinate (f := Int.floor)
    (fun sign mantissa e => by rw [floorScaled_eq, signed_isNegative]) determinate

theorem ceil_of_determinate (determinate : Determinate a) : ceil a = heldCeil (number a) :=
  toWhole_of_determinate (f := Int.ceil)
    (fun sign mantissa e => by
      rw [floorScaled_eq, Int.cast_neg, neg_mul, Int.floor_neg, neg_neg, signed_isNegative])
    determinate

/-- The nearest whole number, a half away from zero. -/
noncomputable def roundAway (x : ℝ) : ℤ := if x < 0 then -⌊-x + 1 / 2⌋ else ⌊x + 1 / 2⌋

theorem roundScaled_eq (n : ℕ) (exponent : ℤ) :
    (roundScaled n exponent : ℤ) = ⌊(n * 2 ^ exponent + 1 / 2 : ℝ)⌋ := by
  cases exponent with
  | ofNat k =>
    have whole : (n * 2 ^ (Int.ofNat k) : ℝ) = ((n * 2 ^ k : ℕ) : ℝ) := by
      push_cast
      rfl
    have half : ⌊(1 / 2 : ℝ)⌋ = 0 := by norm_num
    rw [whole, Int.floor_natCast_add, half, add_zero]
    rfl
  | negSucc k =>
    have ratio : (n * 2 ^ (Int.negSucc k) + 1 / 2 : ℝ) =
        ((n + 2 ^ k : ℕ) : ℝ) / (2 ^ (k + 1) : ℕ) := by
      rw [zpow_negSucc]
      push_cast
      field_simp
      ring
    rw [ratio, Int.floor_div_natCast, Int.floor_natCast, roundScaled,
      Nat.shiftRight_eq_div_pow]
    rfl

theorem round_of_determinate (determinate : Determinate a) :
    round a = extended leastWhole greatestWhole
      (fun x => saturate (roundAway x)) (number a) := by
  refine toWhole_of_determinate (fun sign mantissa exponent => ?_) determinate
  have nonneg : (0 : ℝ) ≤ mantissa * 2 ^ exponent := by positivity
  rw [signed, roundScaled_eq]
  cases sign with
  | positive => exact (if_neg (not_lt.mpr nonneg)).symm
  | negative =>
    have minus : Rounding.signed .negative mantissa * 2 ^ exponent =
        -(mantissa * 2 ^ exponent : ℝ) := neg_mul _ _
    have half : ⌊(1 / 2 : ℝ)⌋ = 0 := by norm_num
    rw [minus, roundAway, neg_neg]
    rcases nonneg.eq_or_lt with zero | positive
    · rw [← zero, neg_zero, zero_add, half, if_neg (lt_irrefl 0)]
      rfl
    · rw [if_pos (neg_lt_zero.mpr positive)]
      rfl

/-- The number without its fraction. -/
noncomputable def wholePart (x : ℝ) : ℤ := if x < 0 then -⌊-x⌋ else ⌊x⌋

theorem truncate_of_determinate (determinate : Determinate a) :
    truncate a = extended leastWhole greatestWhole
      (fun x => saturate (wholePart x)) (number a) := by
  refine toWhole_of_determinate (fun sign mantissa exponent => ?_) determinate
  have nonneg : (0 : ℝ) ≤ mantissa * 2 ^ exponent := by positivity
  have floor : ((floorScaled mantissa exponent).toNat : ℤ) = ⌊(mantissa * 2 ^ exponent : ℝ)⌋ := by
    rw [floorScaled_eq, Int.cast_natCast, Int.toNat_of_nonneg (Int.floor_nonneg.mpr nonneg)]
  rw [signed, floor]
  cases sign with
  | positive => exact (if_neg (not_lt.mpr nonneg)).symm
  | negative =>
    have minus : Rounding.signed .negative mantissa * 2 ^ exponent =
        -(mantissa * 2 ^ exponent : ℝ) := neg_mul _ _
    rw [minus, wholePart, neg_neg]
    rcases nonneg.eq_or_lt with zero | positive
    · rw [← zero, neg_zero, Int.floor_zero, if_neg (lt_irrefl 0)]
      rfl
    · rw [if_pos (neg_lt_zero.mpr positive)]
      rfl

theorem ceil_of_indeterminate (indeterminate : ¬ Determinate a) : ceil a = 0 := by
  unfold ceil toWhole
  rw [decode_eq, not_not.mp indeterminate]
  rfl

theorem finite_half : Finite Format.binary64 (Scalar.half : Float).toModel.unpack := by
  have read : (Scalar.half : Float).toModel.unpack =
      .finite .positive (2 ^ 52) (-53) (Nat.two_pow_pos 52) := by
    rfl
  rw [read]
  exact ⟨Nat.two_pow_pos 52, by decide, by decide, .inl le_rfl⟩

/-- Positions that come later do not give earlier pixels. -/
theorem pixelFrom_mono (before : Scalar.precedes a b = true) (limit : ℕ) :
    Scalar.pixelFrom a limit ≤ Scalar.pixelFrom b limit := by
  have later : (ceil (a - Scalar.half)).toNat ≤ (ceil (b - Scalar.half)).toNat := by
    rcases precedes_iff.mp before with indeterminate | ⟨second, le⟩
    · rw [ceil_of_indeterminate (sub_of_indeterminate indeterminate)]
      exact Nat.zero_le _
    · by_cases first : Determinate a
      · obtain ⟨first', number_a⟩ := sub_of_determinate finite_half first
        obtain ⟨second', number_b⟩ := sub_of_determinate finite_half second
        rw [ceil_of_determinate first', ceil_of_determinate second', number_a, number_b]
        exact Int.toNat_le_toNat (heldCeil_mono (lowered_mono _ _ le))
      · rw [ceil_of_indeterminate (sub_of_indeterminate first)]
        exact Nat.zero_le _
  exact min_le_min_right limit later

end VectorPaint.Binary64
