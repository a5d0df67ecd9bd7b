import VectorPaint.Proofs.Scalar.Unpacked

/-!
Floats as they are stored. A stored float is finite, infinite or indeterminate; storing a finite one
keeps it unless its exponent is too great, and then it becomes infinite. Floats that are determinate
are ordered like what they stand for, in the real numbers with an infinite one at either end.
-/
namespace VectorPaint.Rounding

open Float.Model Float.Model.UnpackedFloat

variable {S : Format}

/-- The greatest exponent that can be stored. -/
def greatestExponent (S : Format) : ℤ := S.exponentBias - S.mantissaBitsWithoutImplicit

theorem minExponent_eq (S : Format) :
    S.minExponent = 1 - S.exponentBias - S.mantissaBitsWithoutImplicit := by
  have one_le : 1 ≤ 2 ^ (S.exponentBits - 1) := Nat.one_le_two_pow
  unfold Format.minExponent Format.exponentBias Format.mantissaBits
  push_cast [Nat.cast_sub one_le]
  ring

theorem two_pow_exponentBits (S : Format) : 2 ^ S.exponentBits = 2 * S.exponentBias + 2 := by
  have one_le : 1 ≤ 2 ^ (S.exponentBits - 1) := Nat.one_le_two_pow
  have bits : S.exponentBits = S.exponentBits - 1 + 1 := (Nat.sub_add_cancel S.he).symm
  rw [bits, pow_succ, Format.exponentBias]
  omega

theorem toNat_implicit {n : ℕ} (mantissa : BitVec n) :
    (1#1 ++ mantissa).toNat = 2 ^ n + mantissa.toNat := by
  rw [BitVec.toNat_append, ← Nat.shiftLeft_add_eq_or_of_lt mantissa.isLt]
  simp [Nat.shiftLeft_eq]

/-- Reads a float from the values of its fields. A field of exponents has all bits set for what is
infinite or indeterminate, and none for what is smaller than any number with all bits. -/
def ofFields (S : Format) (sign : Sign) (exponent mantissa : ℕ) : UnpackedFloat :=
  if exponent + 1 = 2 ^ S.exponentBits then
    if mantissa = 0 then .infinity sign else .notANumber
  else if exponent = 0 then
    if zero : mantissa = 0 then .zero sign
    else .finite sign mantissa S.minExponent (Nat.pos_of_ne_zero zero)
  else
    .finite sign (2 ^ S.mantissaBitsWithoutImplicit + mantissa) (S.minExponent + exponent - 1)
      (Nat.add_pos_left (Nat.two_pow_pos _) _)

theorem unpack_eq_ofFields (b : BitVec S.numBits) :
    UnpackedFloat.unpack S b =
      ofFields S (.ofBitVec (unpackSign b)) (unpackExponent b).toNat (unpackMantissa b).toNat := by
  have least := minExponent_eq S
  have allSet : unpackExponent b = -1#_ ↔ (unpackExponent b).toNat + 1 = 2 ^ S.exponentBits := by
    rw [← BitVec.toNat_inj, BitVec.neg_one_eq_allOnes, BitVec.toNat_allOnes]
    have := Nat.two_pow_pos S.exponentBits
    omega
  have noneSet : unpackExponent b = 0#_ ↔ (unpackExponent b).toNat = 0 := by
    rw [← BitVec.toNat_inj, BitVec.toNat_zero]
  have zeroMantissa : unpackMantissa b = 0#_ ↔ (unpackMantissa b).toNat = 0 := by
    rw [← BitVec.toNat_inj, BitVec.toNat_zero]
  unfold UnpackedFloat.unpack ofFields
  simp only [allSet, noneSet, zeroMantissa, toNat_implicit]
  split_ifs with first second third
  · rfl
  · rfl
  · rfl
  · congr 1
    omega
  · congr 1
    omega

/-- A float that stands for a number, be it infinite. -/
def Number (S : Format) (u : UnpackedFloat) : Prop :=
  Finite S u ∨ ∃ sign, u = .infinity sign

/-- What is stored stands for a number or is indeterminate. -/
theorem number_unpack (b : BitVec S.numBits)
    (determinate : UnpackedFloat.unpack S b ≠ .notANumber) :
    Number S (UnpackedFloat.unpack S b) := by
  have mantissaLt := (unpackMantissa b).isLt
  have bits : 2 ^ S.mantissaBits = 2 * 2 ^ S.mantissaBitsWithoutImplicit := by
    rw [Format.mantissaBits, pow_add, pow_one]
  rw [unpack_eq_ofFields] at determinate ⊢
  unfold ofFields at determinate ⊢
  split_ifs at determinate ⊢ with allSet noMantissa noneSet noMantissa
  · exact .inr ⟨_, rfl⟩
  · exact absurd rfl determinate
  · exact .inl trivial
  · exact .inl ⟨Nat.pos_of_ne_zero noMantissa, by omega, le_rfl, .inr rfl⟩
  · exact .inl ⟨Nat.add_pos_left (Nat.two_pow_pos _) _, by omega, by omega,
      .inl (Nat.le_add_right ..)⟩

/-- What is stored has an exponent that can be stored. -/
theorem le_greatestExponent_of_unpack (room : S.minExponent ≤ greatestExponent S)
    {b : BitVec S.numBits} {sign : Sign} {mantissa : ℕ} {e : ℤ} {positive : 0 < mantissa}
    (read : UnpackedFloat.unpack S b = .finite sign mantissa e positive) :
    e ≤ greatestExponent S := by
  have least := minExponent_eq S
  have capacity := two_pow_exponentBits S
  have field := (unpackExponent b).isLt
  rw [unpack_eq_ofFields] at read
  unfold ofFields at read
  split_ifs at read with allSet _ noneSet _
  · cases read
    exact room
  · cases read
    unfold greatestExponent
    omega

theorem unpackSign_packComponents (sign : Sign) (exponent : BitVec S.exponentBits)
    (mantissa : BitVec S.mantissaBitsWithoutImplicit) :
    Sign.ofBitVec (unpackSign (packComponents S sign exponent mantissa)) = sign := by
  have bit : unpackSign (packComponents S sign exponent mantissa) = sign.toBitVec := by
    ext i inside
    obtain rfl : i = 0 := by omega
    simp [unpackSign, packComponents, BitVec.getLsbD_append, BitVec.getElem_append]
  rw [bit]
  cases sign <;> rfl

theorem unpack_packComponents (sign : Sign) (exponent : BitVec S.exponentBits)
    (mantissa : BitVec S.mantissaBitsWithoutImplicit) :
    UnpackedFloat.unpack S (packComponents S sign exponent mantissa) =
      ofFields S sign exponent.toNat mantissa.toNat := by
  rw [unpack_eq_ofFields, unpackSign_packComponents, unpackExponent_packComponents,
    unpackMantissa_packComponents]

theorem unpack_packedInfinity (sign : Sign) :
    UnpackedFloat.unpack S (packedInfinity S sign) = .infinity sign := by
  have allSet : (-1#S.exponentBits : BitVec _).toNat + 1 = 2 ^ S.exponentBits := by
    rw [BitVec.neg_one_eq_allOnes, BitVec.toNat_allOnes]
    have := Nat.two_pow_pos S.exponentBits
    omega
  rw [packedInfinity, unpack_packComponents, ofFields, if_pos allSet]
  exact if_pos BitVec.toNat_zero

/-- Storing a float keeps it, unless its exponent is too great. -/
theorem unpack_pack {u : UnpackedFloat} (finite : Finite S u) :
    UnpackedFloat.unpack S (UnpackedFloat.pack S u) =
      match u with
      | .finite sign mantissa e positive =>
        if e ≤ greatestExponent S then .finite sign mantissa e positive else .infinity sign
      | u => u := by
  have least := minExponent_eq S
  have capacity := two_pow_exponentBits S
  have one : ¬ 0 + 1 = 2 ^ S.exponentBits := by omega
  cases u with
  | infinity sign => cases finite
  | notANumber => cases finite
  | zero sign =>
    change UnpackedFloat.unpack S (packComponents S sign 0 0) = .zero sign
    rw [unpack_packComponents]
    simp [ofFields, one]
  | finite sign mantissa e positive =>
    obtain ⟨-, bounded, above, full⟩ := finite
    obtain ⟨exponent, exponent_eq⟩ :
        ∃ exponent : ℕ, e + S.exponentBias + S.mantissaBitsWithoutImplicit = exponent :=
      Int.eq_ofNat_of_zero_le (by omega)
    have bits : 2 ^ S.mantissaBits = 2 * 2 ^ S.mantissaBitsWithoutImplicit := by
      rw [Format.mantissaBits, pow_add, pow_one]
    have allBits : mantissa.log2 + 1 = S.mantissaBits ↔
        2 ^ S.mantissaBitsWithoutImplicit ≤ mantissa := by
      rw [← Nat.le_log2 positive.ne']
      have := (Nat.log2_lt positive.ne').mpr bounded
      unfold Format.mantissaBits at *
      omega
    have tooGreat : 2 ^ S.exponentBits ≤ exponent + 1 ↔ ¬ e ≤ greatestExponent S := by
      unfold greatestExponent
      omega
    -- The three ways to store it: infinite, with its exponent, and without one.
    simp only [UnpackedFloat.pack, exponent_eq, Int.toNat_natCast, tooGreat, allBits]
    by_cases storable : e ≤ greatestExponent S
    · rw [if_neg (not_not.mpr storable), if_pos storable]
      have room : exponent + 1 < 2 ^ S.exponentBits := not_le.mp fun le => tooGreat.mp le storable
      split_ifs with normal
      · have exponentField : (BitVec.ofNat S.exponentBits exponent).toNat = exponent :=
          Nat.mod_eq_of_lt (by omega)
        have mantissaField :
            2 ^ S.mantissaBitsWithoutImplicit + mantissa % 2 ^ S.mantissaBitsWithoutImplicit =
              mantissa := by
          rw [Nat.mod_eq_sub_mod normal, Nat.mod_eq_of_lt (by omega)]
          omega
        rw [unpack_packComponents, ofFields, exponentField, if_neg room.ne, if_neg (by omega)]
        simp only [BitVec.toNat_ofNat, mantissaField]
        congr 1
        omega
      · have mantissaField : mantissa % 2 ^ S.mantissaBitsWithoutImplicit = mantissa :=
          Nat.mod_eq_of_lt (not_le.mp normal)
        rw [unpack_packComponents, ofFields, BitVec.toNat_zero, if_neg one, if_pos rfl]
        simp only [BitVec.toNat_ofNat, mantissaField, positive.ne', dite_false]
        congr 1
        exact (full.resolve_left normal).symm
    · rw [if_pos storable, if_neg storable]
      exact unpack_packedInfinity sign

/-- What a determinate float stands for; it is not used for others. -/
noncomputable def value : UnpackedFloat → EReal
  | .infinity .positive => ⊤
  | .infinity .negative => ⊥
  | u => real u

/-- Numbers too great to be stored become infinite. -/
noncomputable def overflow (S : Format) (x : ℝ) : EReal :=
  if 2 ^ (S.exponentBias + 1) ≤ x then ⊤
  else if x ≤ -2 ^ (S.exponentBias + 1) then ⊥
  else x

theorem overflow_mono (S : Format) : Monotone (overflow S) := by
  intro x y le
  have positive : (0 : ℝ) < 2 ^ (S.exponentBias + 1) := by positivity
  unfold overflow
  split_ifs <;> first | exact le_top | exact bot_le | exact EReal.coe_le_coe le | linarith

theorem overflow_of_lt {x : ℝ} (low : -2 ^ (S.exponentBias + 1) < x)
    (high : x < 2 ^ (S.exponentBias + 1)) : overflow S x = x := by
  rw [overflow, if_neg (not_le.mpr high), if_neg (not_le.mpr low)]

theorem overflow_of_le {x : ℝ} (high : 2 ^ (S.exponentBias + 1) ≤ x) : overflow S x = ⊤ :=
  if_pos high

theorem overflow_of_le_neg {x : ℝ} (low : x ≤ -2 ^ (S.exponentBias + 1)) : overflow S x = ⊥ := by
  have positive : (0 : ℝ) < 2 ^ (S.exponentBias + 1) := by positivity
  rw [overflow, if_neg (by linarith), if_pos low]

theorem value_of_finite {u : UnpackedFloat} (finite : Finite S u) : value u = real u := by
  cases u with
  | infinity sign => cases finite
  | _ => rfl

/-- The greatest exponent is that of the numbers below the bound, in a format with any exponents. -/
theorem le_greatestExponent_iff (room : S.minExponent ≤ greatestExponent S) {mantissa : ℕ} {e : ℤ}
    (fits : Fits S mantissa e) :
    e ≤ greatestExponent S ↔ (mantissa * 2 ^ e : ℝ) < 2 ^ (S.exponentBias + 1) := by
  have scale : (0 : ℝ) < 2 ^ e := zpow_pos zero_lt_two e
  constructor
  · intro storable
    calc (mantissa * 2 ^ e : ℝ)
        < 2 ^ S.mantissaBits * 2 ^ e :=
          mul_lt_mul_of_pos_right (by exact_mod_cast fits.bounded) scale
      _ ≤ 2 ^ S.mantissaBits * 2 ^ greatestExponent S := by
          gcongr
          exact one_le_two
      _ = 2 ^ (S.exponentBias + 1) := by
          rw [← zpow_natCast, ← zpow_natCast, ← zpow_add₀ two_ne_zero, greatestExponent,
            Format.mantissaBits]
          congr 1
          push_cast
          ring
  · contrapose!
    intro tooGreat
    have full : 2 ^ S.mantissaBitsWithoutImplicit ≤ mantissa :=
      fits.full.resolve_right (room.trans_lt tooGreat).ne'
    calc (2 ^ (S.exponentBias + 1) : ℝ)
        = 2 ^ S.mantissaBitsWithoutImplicit * 2 ^ (greatestExponent S + 1) := by
          rw [← zpow_natCast, ← zpow_natCast, ← zpow_add₀ two_ne_zero, greatestExponent]
          congr 1
          push_cast
          ring
      _ ≤ 2 ^ S.mantissaBitsWithoutImplicit * 2 ^ e := by
          gcongr
          · exact one_le_two
          · exact tooGreat
      _ ≤ mantissa * 2 ^ e := by
          gcongr
          exact_mod_cast full

theorem value_unpack_pack (room : S.minExponent ≤ greatestExponent S) {u : UnpackedFloat}
    (finite : Finite S u) :
    UnpackedFloat.unpack S (UnpackedFloat.pack S u) ≠ .notANumber ∧
      value (UnpackedFloat.unpack S (UnpackedFloat.pack S u)) = overflow S (real u) := by
  have bound : (0 : ℝ) < 2 ^ (S.exponentBias + 1) := by positivity
  rw [unpack_pack finite]
  cases u with
  | infinity sign => cases finite
  | notANumber => cases finite
  | zero sign =>
    exact ⟨UnpackedFloat.noConfusion, (overflow_of_lt (neg_neg_of_pos bound) bound).symm⟩
  | finite sign mantissa e positive =>
    have nonneg : (0 : ℝ) ≤ mantissa * 2 ^ e := by positivity
    have storable := le_greatestExponent_iff room finite
    by_cases small : e ≤ greatestExponent S
    · have below := storable.mp small
      simp only [if_pos small]
      refine ⟨UnpackedFloat.noConfusion, (overflow_of_lt ?_ ?_).symm⟩
      · cases sign <;> simp only [real, signed] <;> linarith
      · cases sign <;> simp only [real, signed] <;> linarith
    · have above := not_lt.mp (mt storable.mpr small)
      simp only [if_neg small]
      refine ⟨UnpackedFloat.noConfusion, ?_⟩
      cases sign with
      | negative => exact (overflow_of_le_neg (neg_le_neg above)).symm
      | positive => exact (overflow_of_le above).symm

/-- A function of the real numbers, with a value at either infinite end. -/
noncomputable def extended {β : Type} (low high : β) (f : ℝ → β) (x : EReal) : β :=
  if x = ⊤ then high else if x = ⊥ then low else f x.toReal

section Extended

variable {β : Type} {low high : β} {f : ℝ → β}

theorem extended_top : extended low high f ⊤ = high := if_pos rfl

theorem extended_bot : extended low high f ⊥ = low := (if_neg bot_ne_top).trans (if_pos rfl)

theorem extended_coe (x : ℝ) : extended low high f x = f x := by
  rw [extended, if_neg (EReal.coe_ne_top x), if_neg (EReal.coe_ne_bot x), EReal.toReal_coe]

theorem extended_mono [Preorder β] (mono : Monotone f) (above : ∀ x, low ≤ f x)
    (below : ∀ x, f x ≤ high) : Monotone (extended low high f) := by
  intro x y le
  induction y with
  | bot => rw [le_bot_iff.mp le]
  | top =>
    rw [extended_top]
    induction x with
    | bot => exact extended_bot.trans_le ((above 0).trans (below 0))
    | top => exact extended_top.le
    | coe x => exact (extended_coe x).trans_le (below x)
  | coe y =>
    rw [extended_coe]
    induction x with
    | bot => exact extended_bot.trans_le (above y)
    | top => exact absurd le (not_le.mpr (EReal.coe_lt_top y))
    | coe x => exact (extended_coe x).trans_le (mono (EReal.coe_le_coe_iff.mp le))

end Extended

/-- A number with a finite one taken away, as it is stored. -/
noncomputable def lowered (S : Format) (d : ℝ) : EReal → EReal :=
  extended ⊥ ⊤ fun x => overflow S (rounded S (x - d))

theorem lowered_mono (S : Format) (d : ℝ) : Monotone (lowered S d) :=
  extended_mono
    (fun _ _ le => overflow_mono S (rounded_mono S (sub_le_sub_right le d)))
    (fun _ => bot_le) (fun _ => le_top)

/-- Taking a finite float away gives a determinate one, however great. -/
theorem value_sub (room : S.minExponent ≤ greatestExponent S) {u v : UnpackedFloat}
    (first : Number S u) (second : Finite S v) :
    UnpackedFloat.unpack S (UnpackedFloat.pack S (UnpackedFloat.sub S u v)) ≠ .notANumber ∧
      value (UnpackedFloat.unpack S (UnpackedFloat.pack S (UnpackedFloat.sub S u v))) =
        lowered S (real v) (value u) := by
  rcases first with finite | ⟨sign, rfl⟩
  · obtain ⟨difference, same⟩ := sub_spec finite second
    rw [value_of_finite finite, lowered, extended_coe, ← same]
    exact value_unpack_pack room difference
  · have stays : UnpackedFloat.sub S (.infinity sign) v = .infinity sign := by
      cases v <;> first | rfl | cases second
    rw [stays, UnpackedFloat.pack, unpack_packedInfinity]
    refine ⟨UnpackedFloat.noConfusion, ?_⟩
    cases sign with
    | positive => exact extended_top.symm
    | negative => exact extended_bot.symm

/-- A smaller exponent is that of a smaller number. -/
theorem Fits.lt_of_exponent_lt {mantissa mantissa' : ℕ} {e e' : ℤ} (fits : Fits S mantissa e)
    (fits' : Fits S mantissa' e') (lt : e < e') :
    (mantissa * 2 ^ e : ℝ) < mantissa' * 2 ^ e' := by
  have full : 2 ^ S.mantissaBitsWithoutImplicit ≤ mantissa' :=
    fits'.full.resolve_right (fits.least.trans_lt lt).ne'
  calc (mantissa * 2 ^ e : ℝ)
      < 2 ^ S.mantissaBits * 2 ^ e :=
        mul_lt_mul_of_pos_right (by exact_mod_cast fits.bounded) (zpow_pos zero_lt_two e)
    _ = 2 ^ S.mantissaBitsWithoutImplicit * 2 ^ (e + 1) := by
        rw [Format.mantissaBits, pow_add, zpow_add₀ two_ne_zero]
        ring
    _ ≤ 2 ^ S.mantissaBitsWithoutImplicit * 2 ^ e' := by
        gcongr
        · exact one_le_two
        · exact lt
    _ ≤ mantissa' * 2 ^ e' := by
        gcongr
        exact_mod_cast full

/-- The lexicographic order of exponents and mantissas is that of the numbers. -/
theorem isLE_compare_iff {mantissa mantissa' : ℕ} {e e' : ℤ} (fits : Fits S mantissa e)
    (fits' : Fits S mantissa' e') :
    ((compare e e').then (compare mantissa mantissa')).isLE ↔
      (mantissa * 2 ^ e : ℝ) ≤ mantissa' * 2 ^ e' := by
  rcases lt_trichotomy e e' with lt | rfl | gt
  · rw [compare_lt_iff_lt.mpr lt]
    exact iff_of_true rfl (fits.lt_of_exponent_lt fits' lt).le
  · rw [compare_eq_iff_eq.mpr rfl, Ordering.eq_then, Nat.isLE_compare,
      mul_le_mul_iff_left₀ (zpow_pos (zero_lt_two (α := ℝ)) e), Nat.cast_le]
  · rw [compare_gt_iff_gt.mpr gt]
    exact iff_of_false Bool.false_ne_true (not_le.mpr (fits'.lt_of_exponent_lt fits gt))

private theorem magnitude_pos {mantissa : ℕ} (positive : 0 < mantissa) (e : ℤ) :
    (0 : ℝ) < mantissa * 2 ^ e :=
  mul_pos (Nat.cast_pos.mpr positive) (zpow_pos zero_lt_two e)

/-- Finite floats are ordered like their numbers. -/
theorem le_iff_real {u v : UnpackedFloat} (first : Finite S u) (second : Finite S v) :
    UnpackedFloat.le u v ↔ real u ≤ real v := by
  cases u with
  | infinity sign => cases first
  | notANumber => cases first
  | zero sign =>
    cases v with
    | infinity sign' => cases second
    | notANumber => cases second
    | zero sign' => exact iff_of_true rfl le_rfl
    | finite sign' mantissa' e' positive' =>
      have above := magnitude_pos positive' e'
      cases sign' with
      | negative => exact iff_of_false Bool.false_ne_true (not_le.mpr (neg_neg_of_pos above))
      | positive => exact iff_of_true rfl above.le
  | finite sign mantissa e positive =>
    have above := magnitude_pos positive e
    cases v with
    | infinity sign' => cases second
    | notANumber => cases second
    | zero sign' =>
      cases sign with
      | negative => exact iff_of_true rfl (neg_neg_of_pos above).le
      | positive => exact iff_of_false Bool.false_ne_true (not_le.mpr above)
    | finite sign' mantissa' e' positive' =>
      have above' := magnitude_pos positive' e'
      cases sign with
      | negative =>
        cases sign' with
        | negative =>
          change (((compare e e').then (compare mantissa mantissa')).swap).isLE ↔ _
          rw [Ordering.swap_then, Int.compare_swap, Nat.compare_swap,
            isLE_compare_iff second first]
          exact neg_le_neg_iff.symm
        | positive => exact iff_of_true rfl ((neg_neg_of_pos above).trans above').le
      | positive =>
        cases sign' with
        | negative =>
          exact iff_of_false Bool.false_ne_true
            (not_le.mpr ((neg_neg_of_pos above').trans above))
        | positive => exact isLE_compare_iff first second

private theorem le_infinity_iff {u : UnpackedFloat} (number : Number S u) (sign : Sign) :
    UnpackedFloat.le u (.infinity sign) ↔ value u ≤ value (.infinity sign) := by
  rcases number with finite | ⟨sign', rfl⟩
  · rw [value_of_finite finite]
    cases sign with
    | positive =>
      refine iff_of_true ?_ le_top
      cases u <;> first | rfl | cases finite
    | negative =>
      refine iff_of_false (Bool.not_eq_true _ ▸ ?_) (not_le.mpr (EReal.bot_lt_coe _))
      cases u <;> first | rfl | cases finite
  · cases sign <;> cases sign' <;>
      simp [UnpackedFloat.le, UnpackedFloat.compare, value, compare, Ordering.isLE]

private theorem infinity_le_iff {u : UnpackedFloat} (finite : Finite S u) (sign : Sign) :
    UnpackedFloat.le (.infinity sign) u ↔ value (.infinity sign) ≤ value u := by
  rw [value_of_finite finite]
  cases sign with
  | positive =>
    refine iff_of_false (Bool.not_eq_true _ ▸ ?_) (not_le.mpr (EReal.coe_lt_top _))
    cases u <;> first | rfl | cases finite
  | negative =>
    refine iff_of_true ?_ bot_le
    cases u <;> first | rfl | cases finite

/-- Determinate floats are ordered like what they stand for. -/
theorem le_iff {u v : UnpackedFloat} (first : Number S u) (second : Number S v) :
    UnpackedFloat.le u v ↔ value u ≤ value v := by
  rcases second with finite | ⟨sign, rfl⟩
  · rcases first with finite' | ⟨sign, rfl⟩
    · rw [value_of_finite finite', value_of_finite finite, EReal.coe_le_coe_iff,
        le_iff_real finite' finite]
    · exact infinity_le_iff finite sign
  · exact le_infinity_iff first sign

/-- Compared the other way round, floats are in the opposite order. -/
theorem compare_swap (u v : UnpackedFloat) :
    UnpackedFloat.compare v u = (UnpackedFloat.compare u v).map Ordering.swap := by
  cases u with
  | notANumber => cases v <;> rfl
  | infinity sign =>
    cases v with
    | notANumber => rfl
    | infinity sign' => cases sign <;> cases sign' <;> rfl
    | _ => cases sign <;> rfl
  | zero sign =>
    cases v with
    | notANumber => rfl
    | zero sign' => rfl
    | infinity sign' | finite sign' _ _ _ => cases sign' <;> rfl
  | finite sign mantissa e positive =>
    cases v with
    | notANumber => rfl
    | infinity sign' => cases sign' <;> rfl
    | zero sign' => cases sign <;> rfl
    | finite sign' mantissa' e' positive' =>
      cases sign <;> cases sign' <;>
        simp [UnpackedFloat.compare, Ordering.swap_then, Int.compare_swap, Nat.compare_swap]

/-- Of two determinate floats one is at most the other, so the three comparisons agree. -/
private theorem exists_compare {u v : UnpackedFloat} (first : Number S u) (second : Number S v) :
    ∃ order, UnpackedFloat.compare u v = some order ∧
      (order.isLE ↔ value u ≤ value v) ∧ (order.swap.isLE ↔ value v ≤ value u) := by
  have forth := le_iff first second
  have back := le_iff second first
  unfold UnpackedFloat.le at forth back
  rw [compare_swap u v] at back
  cases found : UnpackedFloat.compare u v with
  | none =>
    rw [found] at forth back
    have total := le_total (value u) (value v)
    rw [← forth, ← back] at total
    simp at total
  | some order =>
    rw [found] at forth back
    exact ⟨order, rfl, forth, back⟩

theorem lt_iff {u v : UnpackedFloat} (first : Number S u) (second : Number S v) :
    UnpackedFloat.lt u v ↔ value u < value v := by
  obtain ⟨order, found, -, back⟩ := exists_compare first second
  rw [UnpackedFloat.lt, found, ← not_le, ← back]
  cases order <;> decide

theorem beq_iff {u v : UnpackedFloat} (first : Number S u) (second : Number S v) :
    UnpackedFloat.beq u v ↔ value u = value v := by
  obtain ⟨order, found, forth, back⟩ := exists_compare first second
  rw [UnpackedFloat.beq, found, @le_antisymm_iff EReal, ← forth, ← back]
  cases order <;> decide

end VectorPaint.Rounding
