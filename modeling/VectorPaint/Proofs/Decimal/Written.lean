import Mathlib
import VectorPaint.Decimal.Text
import VectorPaint.Proofs.Decimal.Value

/-!
Decimal texts that are written. Each of them is the spelling of a number: of the one that it was
made from, if nothing was rounded. Digits are put together with or without a point, a sign may stand
in front of them and an exponent behind them.
-/
namespace VectorPaint.Decimal

open Numeral
open Binary64 (signOf)

variable {text digits power : List Char} {x : ℝ} {e : ℤ}

section Digits

theorem digitsValue_append (first second : List Char) :
    digitsValue (first ++ second) =
      digitsValue first * 10 ^ second.length + digitsValue second := by
  have shifted : Nat.ofDigitChars 10 second (digitsValue first) =
      10 ^ second.length * digitsValue first + digitsValue second :=
    Nat.ofDigitChars_eq_ofDigitChars_zero
  rw [mul_comm] at shifted
  exact (Nat.ofDigitChars_append 0).trans shifted

theorem digitsValue_replicate (k : ℕ) : digitsValue (List.replicate k '0') = 0 := by
  induction k with
  | zero => rfl
  | succ k ih => rw [List.replicate_succ', digitsValue_append, ih, zero_mul, zero_add]; rfl

theorem digitsValue_toDigits (n : ℕ) : digitsValue (Nat.toDigits 10 n) = n :=
  Nat.ofDigitChars_ten_toDigits

theorem allDigits_toDigits (n : ℕ) : AllDigits (Nat.toDigits 10 n) :=
  fun _ member => Nat.isDigit_of_mem_toDigits (by decide) (by decide) member

theorem allDigits_append (first : AllDigits digits) (second : AllDigits text) :
    AllDigits (digits ++ text) := by
  intro c member
  rcases List.mem_append.mp member with member | member
  · exact first c member
  · exact second c member

theorem allDigits_replicate (k : ℕ) : AllDigits (List.replicate k '0') := by
  intro c member
  rw [List.eq_of_mem_replicate member]
  rfl

theorem toList_toString (n : ℕ) : (toString n).toList = Nat.toDigits 10 n := Nat.toList_repr

/-- The digits that are put behind a point. -/
structure Padded (width n : ℕ) (digits : List Char) : Prop where
  all : AllDigits digits
  value : digitsValue digits = n
  length : digits.length = width

theorem padded_spec {width n : ℕ} (positive : 0 < width) (fits : n < 10 ^ width) :
    Padded width n (padded width n).toList := by
  have short := (Nat.length_toDigits_le_iff (by decide) positive).mpr fits
  unfold padded
  rw [String.toList_ofList]
  constructor
  · exact allDigits_append (allDigits_replicate _) (allDigits_toDigits n)
  · rw [digitsValue_append, digitsValue_replicate, zero_mul, zero_add, digitsValue_toDigits]
  · rw [List.length_append, List.length_replicate]
    omega

/-- What is removed from the end are zeros. -/
theorem exists_append_zeros (digits : List Char) :
    ∃ k, digits = withoutTrailingZeros digits ++ List.replicate k '0' := by
  refine ⟨(digits.reverse.takeWhile (· == '0')).length, ?_⟩
  have zeros : digits.reverse.takeWhile (· == '0') =
      List.replicate (digits.reverse.takeWhile (· == '0')).length '0' := by
    refine List.eq_replicate_of_mem fun c member => ?_
    exact eq_of_beq (List.all_eq_true.mp List.all_takeWhile c member)
  have parts := List.takeWhile_append_dropWhile (p := (· == '0')) (l := digits.reverse)
  rw [← List.reverse_replicate, ← zeros, withoutTrailingZeros, ← List.reverse_append, parts,
    List.reverse_reverse]

end Digits

section Positional

theorem tenPow_eq (k : ℕ) : tenPow k = 10 ^ k := rfl

/-- Digits with a point among them or without one, and the number that they stand for. -/
inductive Positional : List Char → ℝ → Prop where
  | parts {whole fraction point : List Char} {x : ℝ} : AllDigits whole → whole ≠ [] →
      FractionSpelled fraction point →
      digitsValue (whole ++ fraction) / 10 ^ fraction.length = x → Positional (whole ++ point) x

theorem positional_toString (n : ℕ) : Positional (toString n).toList n := by
  rw [toList_toString, ← List.append_nil (Nat.toDigits 10 n)]
  refine .parts (allDigits_toDigits n) Nat.toDigits_ne_nil .none ?_
  rw [List.append_nil, digitsValue_toDigits, List.length_nil, pow_zero, div_one]

theorem positional_fixedText {places : ℕ} (positive : 0 < places) (n : ℕ) :
    Positional (fixedText places n).toList (n / 10 ^ places) := by
  have power : 0 < 10 ^ places := Nat.pow_pos (by decide)
  obtain ⟨all, value, length⟩ := padded_spec positive (Nat.mod_lt n power)
  have parts : (fixedText places n).toList =
      Nat.toDigits 10 (n / 10 ^ places) ++ '.' :: (padded places (n % 10 ^ places)).toList := by
    rw [← toList_toString]
    simp only [fixedText, tenPow_eq, positive.ne', if_false, String.toList_append,
      List.append_assoc]
    rfl
  rw [parts]
  refine .parts (allDigits_toDigits _) Nat.toDigits_ne_nil (.point all) ?_
  rw [digitsValue_append, digitsValue_toDigits, value, length, mul_comm]
  congr 1
  exact_mod_cast Nat.div_add_mod n (10 ^ places)

/-- Zeros that are missing at the end of the digits behind a point make no difference. -/
theorem value_of_kept {q k : ℕ} {kept : List Char} (places : ℕ)
    (length : kept.length + k = places) :
    (digitsValue (Nat.toDigits 10 q ++ kept) / 10 ^ kept.length : ℝ) =
      ((10 ^ places * q + digitsValue kept * 10 ^ k : ℕ) : ℝ) / 10 ^ places := by
  rw [digitsValue_append, digitsValue_toDigits, ← length, pow_add]
  push_cast
  field_simp
  ring

theorem positional_shortText {places : ℕ} (positive : 0 < places) (n : ℕ) :
    Positional (shortText places n).toList (n / 10 ^ places) := by
  have power : 0 < 10 ^ places := Nat.pow_pos (by decide)
  have whole : (10 ^ places * (n / 10 ^ places) + n % 10 ^ places : ℕ) = n := Nat.div_add_mod ..
  obtain ⟨all, value, length⟩ := padded_spec positive (Nat.mod_lt n power)
  obtain ⟨k, zeros⟩ := exists_append_zeros (padded places (n % 10 ^ places)).toList
  simp only [shortText, tenPow_eq]
  generalize withoutTrailingZeros (padded places (n % 10 ^ places)).toList = kept at zeros
  rw [zeros] at all value length
  rw [digitsValue_append, digitsValue_replicate, add_zero, List.length_replicate] at value
  rw [List.length_append, List.length_replicate] at length
  have exact := value_of_kept (q := n / 10 ^ places) places length
  rw [value, whole] at exact
  split
  · rw [toList_toString, ← List.append_nil (Nat.toDigits 10 _)]
    exact .parts (allDigits_toDigits _) Nat.toDigits_ne_nil .none exact
  · simp only [String.toList_append, toList_toString, String.toList_ofList, List.append_assoc]
    have kept_all : AllDigits kept := fun c member => all c (List.mem_append_left _ member)
    exact .parts (allDigits_toDigits _) Nat.toDigits_ne_nil (.point kept_all) exact

end Positional

section Spells

/-- The text is a number as a whole, and it is written for this number. -/
def Spells (text : String) (x : ℝ) : Prop := ∃ n : Numeral, n.Spelled text.toList ∧ n.exact = x

/-- The characters of a sign. -/
theorem toList_withSign (negative : Bool) (text : String) :
    ∃ sign, (withSign negative text).toList = sign ++ text.toList ∧ SignSpelled negative sign := by
  cases negative with
  | false => exact ⟨[], rfl, .none⟩
  | true => exact ⟨['-'], String.toList_append, .minus⟩

/-- A whole number is its digits, with a sign if it is negative. -/
theorem toString_int (e : ℤ) : toString e = withSign (decide (e < 0)) (toString e.natAbs) := by
  cases e with
  | ofNat k => rfl
  | negSucc k =>
    rw [decide_eq_true (Int.negSucc_lt_zero k)]
    rfl

theorem exponentSpelled_toString (e : ℤ) : ExponentSpelled e ('e' :: (toString e).toList) := by
  obtain ⟨sign, parts, signed⟩ := toList_withSign (decide (e < 0)) (toString e.natAbs)
  have spelled := ExponentSpelled.letter (.inl rfl) signed (allDigits_toDigits e.natAbs)
    Nat.toDigits_ne_nil
  rw [digitsValue_toDigits] at spelled
  rw [toString_int, parts, toList_toString]
  have value : (if decide (e < 0) = true then -(e.natAbs : ℤ) else e.natAbs) = e := by
    simp only [decide_eq_true_iff]
    split <;> omega
  rwa [value] at spelled

/-- A sign in front of a positional text and an exponent behind it change the number. -/
theorem Positional.exists_spelled (positional : Positional text x) {negative : Bool}
    {sign : List Char} (signed : SignSpelled negative sign) (raised : ExponentSpelled e power) :
    ∃ n : Numeral, n.Spelled (sign ++ (text ++ power)) ∧
      n.exact = signOf negative * (x * 10 ^ e) := by
  obtain @⟨whole, fraction, point, x, all, some_digit, fractional, rfl⟩ := positional
  refine ⟨⟨negative, whole, fraction, e⟩, ?_, ?_⟩
  · rw [List.append_assoc]
    exact .parts signed all fractional (.inl some_digit) raised
  · rw [Numeral.exact, zpow_sub₀ (by norm_num), zpow_natCast]
    ring

theorem Positional.spells_withSign {text : String} (positional : Positional text.toList x)
    (negative : Bool) : Spells (withSign negative text) (signOf negative * x) := by
  obtain ⟨sign, parts, signed⟩ := toList_withSign negative text
  obtain ⟨n, spelled, value⟩ := positional.exists_spelled signed .none
  rw [List.append_nil, ← parts] at spelled
  rw [zpow_zero, mul_one] at value
  exact ⟨n, spelled, value⟩

theorem Positional.spells_scientific {text : String} (positional : Positional text.toList x)
    (negative : Bool) (e : ℤ) :
    Spells (withSign negative (text ++ "e" ++ toString e))
      (signOf negative * (x * 10 ^ e)) := by
  obtain ⟨sign, parts, signed⟩ := toList_withSign negative (text ++ "e" ++ toString e)
  obtain ⟨n, spelled, value⟩ := positional.exists_spelled signed (exponentSpelled_toString e)
  refine ⟨n, ?_, value⟩
  rw [parts, String.toList_append, String.toList_append, List.append_assoc]
  exact spelled

theorem spells_int (n : ℤ) : Spells (toString n) n := by
  have spells := (positional_toString n.natAbs).spells_withSign (decide (n < 0))
  have value : signOf (decide (n < 0)) * (n.natAbs : ℝ) = n := by
    unfold signOf
    simp only [decide_eq_true_iff, Nat.cast_natAbs, Int.cast_abs]
    split
    · rename_i negative
      rw [abs_of_neg (Int.cast_lt_zero.mpr negative), neg_one_mul, neg_neg]
    · rename_i nonneg
      rw [abs_of_nonneg (Int.cast_nonneg (not_lt.mp nonneg)), one_mul]
  rwa [value, ← toString_int] at spells

end Spells

end VectorPaint.Decimal
