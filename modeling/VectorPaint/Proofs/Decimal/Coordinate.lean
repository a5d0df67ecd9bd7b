import Mathlib
import VectorPaint.Proofs.Decimal.Scientific
import VectorPaint.Proofs.PathData.Operands

/-!
Coordinates as they are written and read back. The text of a finite coordinate is always a number of
path data as a whole. A whole number is written with all its digits as long as it fits into 64 bits,
and beyond that as the end of the range; others are written with four to seven digits. So what is
read back is close to the coordinate, and the same if it is whole and not too great, save for the
values far beyond the range, which are not.
-/
namespace VectorPaint.Decimal

open Binary64 Numeral

variable {v : Float} {x z : ℝ} {text : String}

section Reading

/-- What is read from the text of a number is the float nearest to the number. -/
theorem Spells.exists_read (spells : Spells text z) (small : |z| < 2 ^ 64) :
    ∃ w, PathData.Token .number (.number w) text.toList [] ∧
      PathData.number text.toList = .ok (w, []) ∧ Denotes w (rounded z) := by
  obtain ⟨n, spelled, rfl⟩ := spells
  have denotes := (stores_value n).denotes_of_lt small
  have longest : Longest text.toList (text.toList ++ []) := by
    rintro longer m start -
    rw [List.append_nil] at start
    exact start.length_le
  have token := PathData.Token.number spelled longest ahead_nil denotes.isFinite
  rw [List.append_nil] at token
  exact ⟨n.value, token, PathData.number_of_token token, denotes⟩

end Reading

section Whole

theorem wholePart_intCast (n : ℤ) : wholePart n = n := by
  unfold wholePart
  split
  · rw [← Int.cast_neg, Int.floor_intCast, neg_neg]
  · exact Int.floor_intCast n

theorem natAbs_wholePart (x : ℝ) : (wholePart x).natAbs = ⌊|x|⌋₊ := by
  unfold wholePart
  rw [← Int.floor_toNat]
  split
  · rename_i negative
    have nonneg := Int.floor_nonneg.mpr (neg_pos.mpr negative).le
    rw [abs_of_neg negative]
    omega
  · rename_i nonneg
    have floor := Int.floor_nonneg.mpr (not_lt.mp nonneg)
    rw [abs_of_nonneg (not_lt.mp nonneg)]
    omega

theorem abs_wholePart_sub (x : ℝ) : |(wholePart x : ℝ) - x| = Int.fract |x| := by
  unfold wholePart
  split
  · rename_i negative
    have rest := Int.fract_nonneg (-x)
    rw [abs_of_neg negative, Int.cast_neg, ← abs_of_nonneg rest]
    congr 1
    rw [Int.fract]
    ring
  · rename_i nonneg
    have rest := Int.fract_nonneg x
    rw [abs_of_nonneg (not_lt.mp nonneg), abs_sub_comm, ← abs_of_nonneg rest]
    rfl

theorem abs_wholePart_le (x : ℝ) : |(wholePart x : ℝ)| ≤ |x| := by
  have floor := Nat.floor_le (abs_nonneg x)
  rwa [← natAbs_wholePart, Nat.cast_natAbs, Int.cast_abs] at floor

theorem abs_decoded (negative : Bool) (mantissa : ℕ) (e : ℤ) :
    |signOf negative * (mantissa * 2 ^ e)| = mantissa * 2 ^ e := by
  rw [abs_signOf_mul, abs_of_nonneg (by positivity)]

/-- Great floats have no fraction. -/
theorem exists_int_of_le (denotes : Denotes v x) (great : 2 ^ 53 ≤ |x|) : ∃ n : ℤ, x = n := by
  obtain ⟨negative, mantissa, e, -, bounded, rfl⟩ := denotes.exists_decode
  rcases lt_or_ge e 0 with fraction | whole
  · have digits : (mantissa : ℝ) < 2 ^ 53 := by exact_mod_cast bounded
    have unit : (2 : ℝ) ^ e ≤ 1 := zpow_le_one_of_nonpos₀ one_le_two fraction.le
    have below : (mantissa * 2 ^ e : ℝ) ≤ mantissa := mul_le_of_le_one_right (by positivity) unit
    rw [abs_decoded] at great
    linarith
  · obtain ⟨k, rfl⟩ := Int.eq_ofNat_of_zero_le whole
    refine ⟨(if negative then -1 else 1) * (mantissa * 2 ^ k), ?_⟩
    unfold signOf
    split <;> push_cast <;> rfl

theorem rounded_intCast {n : ℤ} (small : |n| < 2 ^ 53) : rounded n = n := by
  have bounded : n.natAbs < 2 ^ 53 := by
    rw [Int.abs_eq_natAbs] at small
    exact_mod_cast small
  rcases n.natAbs_eq with same | same
  · rw [same, Int.cast_natCast]
    exact rounded_natCast bounded
  · rw [same, Int.cast_neg, Int.cast_natCast, rounded_neg, rounded_natCast bounded]

theorem denotes_end : Denotes 9223372036854775808 (2 ^ 63) :=
  denotes_of_decode
    (show decode 9223372036854775808 = .finite false (2 ^ 52) 11 by decide +kernel)
    (by norm_num [signed])

/-- The greatest whole number of the range is no float, and the nearest one is beyond. -/
theorem rounded_greatestWhole : rounded greatestWhole = 2 ^ 63 := by
  have stores := stores_ofNat 9223372036854775807
  have read : Denotes (Scalar.ofNat 9223372036854775807 : Float) (2 ^ 63) :=
    denotes_of_decode
      (show decode (Scalar.ofNat 9223372036854775807) = .finite false (2 ^ 52) 11 by
        decide +kernel)
      (by norm_num [signed])
  have same := (stores.denotes_of_lt (by norm_num)).number_eq.symm.trans read.number_eq
  rw [EReal.coe_eq_coe_iff] at same
  exact_mod_cast same

theorem rounded_leastWhole : rounded leastWhole = -2 ^ 63 := by
  have value : (leastWhole : ℝ) = -2 ^ 63 := by
    norm_num [leastWhole]
  rw [value]
  exact denotes_end.neg.rounded_eq

/-- The number itself, or the end of the 64-bit range that it is beyond. -/
noncomputable def confined (x : ℝ) : ℝ := max (-2 ^ 63) (min x (2 ^ 63))

theorem confined_of_abs_le (within : |x| ≤ 2 ^ 63) : confined x = x := by
  obtain ⟨low, high⟩ := abs_le.mp within
  rw [confined, min_eq_left high, max_eq_right low]

theorem confined_of_le (below : x ≤ -2 ^ 63) : confined x = -2 ^ 63 := by
  rw [confined, max_eq_left ((min_le_left ..).trans below)]

theorem confined_of_ge (above : 2 ^ 63 ≤ x) : confined x = 2 ^ 63 := by
  rw [confined, min_eq_right above, max_eq_right (by norm_num)]

theorem abs_confined_sub (beyond : 2 ^ 63 ≤ |x|) : |confined x - x| = |x| - 2 ^ 63 := by
  rcases le_abs.mp beyond with above | below
  · rw [confined_of_ge above, abs_sub_comm, abs_of_nonneg (sub_nonneg.mpr above),
      abs_of_nonneg (le_trans (by norm_num) above)]
  · rw [confined_of_le (le_neg.mp below), abs_of_nonneg (by linarith), abs_of_neg (by linarith)]
    ring

/-- Whole numbers come back as they are, or as the end of the range that they are beyond. -/
theorem rounded_saturate (denotes : Denotes v x) :
    rounded (saturate (wholePart x)) = confined (wholePart x) := by
  rcases lt_or_ge |x| (2 ^ 53) with small | great
  · have size := (abs_wholePart_le x).trans_lt small
    have bounded : |wholePart x| < 2 ^ 53 := by exact_mod_cast size
    rw [saturate_of_abs_le (bounded.trans (by norm_num)), rounded_intCast bounded,
      confined_of_abs_le (size.le.trans (by norm_num))]
  -- a whole number is kept here because it is a float already, not because it has few bits
  · obtain ⟨n, rfl⟩ := exists_int_of_le denotes great
    rw [wholePart_intCast]
    unfold saturate leastWhole greatestWhole
    split_ifs with below above
    · have low : n ≤ -2 ^ 63 := by omega
      rw [confined_of_le (by exact_mod_cast low)]
      exact rounded_leastWhole
    · have high : 2 ^ 63 ≤ n := by omega
      rw [confined_of_ge (by exact_mod_cast high)]
      exact rounded_greatestWhole
    · have within : |n| ≤ 2 ^ 63 := abs_le.mpr (by omega)
      rw [denotes.rounded_eq, confined_of_abs_le (by exact_mod_cast within)]

/-- What comes back of a number with hardly any fraction is close to it, unless the end of the range
is not. -/
theorem near_whole_iff (denotes : Denotes v x) (nearly : Int.fract |x| < 1 / 2 ^ 52) :
    |confined (wholePart x) - x| ≤ max (0.0005 * |x|) 0.000001 ↔ 0.9995 * |x| ≤ 2 ^ 63 := by
  rcases le_or_gt |x| (2 ^ 63) with within | beyond
  · rw [confined_of_abs_le ((abs_wholePart_le x).trans within), abs_wholePart_sub]
    refine iff_of_true (le_max_of_le_right ?_) (by linarith)
    exact nearly.le.trans (by norm_num)
  · have great : (2 : ℝ) ^ 53 ≤ |x| := le_trans (by norm_num) beyond.le
    obtain ⟨n, rfl⟩ := exists_int_of_le denotes great
    have part : max (0.0005 * |(n : ℝ)|) 0.000001 = 0.0005 * |(n : ℝ)| := by
      rw [max_eq_left]
      linarith
    rw [wholePart_intCast, part, abs_confined_sub beyond.le]
    constructor <;> intro <;> linarith

end Whole

section Fraction

theorem nearlyWhole_iff (mantissa : ℕ) (e : ℤ) :
    nearlyWhole mantissa e = true ↔ Int.fract (mantissa * 2 ^ e : ℝ) < 1 / 2 ^ 52 := by
  cases e with
  | ofNat k =>
    have whole : (mantissa * 2 ^ Int.ofNat k : ℝ) = (mantissa * 2 ^ k : ℕ) := by
      push_cast
      rfl
    rw [whole, Int.fract_natCast]
    exact iff_of_true rfl (by positivity)
  | negSucc k =>
    have ratio : (mantissa * 2 ^ Int.negSucc k : ℝ) = mantissa / (2 ^ (k + 1) : ℕ) := by
      rw [zpow_negSucc]
      push_cast
      rfl
    have positive : (0 : ℝ) < (2 ^ (k + 1) : ℕ) := by positivity
    rw [ratio, Int.fract_div_natCast_eq_div_natCast_mod, div_lt_div_iff₀ positive (by positivity),
      one_mul, nearlyWhole, decide_eq_true_iff]
    exact_mod_cast Iff.rfl

theorem quotient_spec (mantissa : ℕ) (e : ℤ) :
    0 < (quotient mantissa e).2 ∧
      ((quotient mantissa e).1 / (quotient mantissa e).2 : ℝ) = mantissa * 2 ^ e := by
  cases e with
  | ofNat k =>
    refine ⟨one_pos, ?_⟩
    rw [quotient, Nat.cast_one, div_one, Nat.cast_mul]
    congr 1
    exact Nat.cast_pow 2 k
  | negSucc k =>
    refine ⟨Nat.two_pow_pos _, ?_⟩
    rw [quotient, zpow_negSucc, ← div_eq_mul_inv]
    congr 1
    exact Nat.cast_pow 2 (k + 1)

/-- A number with a fraction that counts is neither zero nor great. -/
structure Fractional (x : ℝ) : Prop where
  nonzero : 0 < |x|
  small : |x| < 2 ^ 52
  not_int : ∀ n : ℤ, x ≠ n

theorem fractional_of_decode {negative : Bool} {mantissa : ℕ} {e : ℤ} (bounded : mantissa < 2 ^ 53)
    (value : x = signOf negative * (mantissa * 2 ^ e)) (counts : ¬ nearlyWhole mantissa e = true) :
    Fractional x := by
  have size : |x| = mantissa * 2 ^ e := by rw [value, abs_decoded]
  have rest := mt (nearlyWhole_iff mantissa e).mpr counts
  rw [← size] at rest
  have not_int : ∀ n : ℤ, x ≠ n := by
    rintro n rfl
    rw [← Int.cast_abs, Int.fract_intCast] at rest
    exact rest (by positivity)
  refine ⟨?_, ?_, not_int⟩
  · refine abs_pos.mpr fun zero => not_int 0 ?_
    rw [zero, Int.cast_zero]
  · cases e with
    | ofNat k => exact absurd rfl counts
    | negSucc k =>
      have digits : (mantissa : ℝ) < 2 ^ 53 := by exact_mod_cast bounded
      have unit : (2 : ℝ) ^ Int.negSucc k ≤ 2 ^ (-1 : ℤ) :=
        zpow_le_zpow_right₀ one_le_two (by omega)
      calc |x| = mantissa * 2 ^ Int.negSucc k := size
        _ ≤ mantissa * 2 ^ (-1 : ℤ) := by gcongr
        _ < 2 ^ 53 * 2 ^ (-1 : ℤ) := by gcongr
        _ = 2 ^ 52 := by norm_num

end Fraction

section Scientific

theorem spells_scientific {negative : Bool} {mantissa : ℕ} {e : ℤ}
    (read : decode v = .finite negative mantissa e) (positive : 0 < (quotient mantissa e).1) :
    Spells (scientific 3 v) (signOf negative *
      scientificValue 3 (quotient mantissa e).1 (quotient mantissa e).2) := by
  unfold scientific
  rw [read]
  exact spells_scientificText (by decide) positive negative

/-- What small numbers lose when they are read is less than what they lose when they are written. -/
theorem near_rounded_of_small {q : ℝ} (near : |z - q| ≤ 0.0005 * q) (nonneg : 0 ≤ q)
    (small : q ≤ 0.001) : |rounded z - q| ≤ 0.000001 := by
  obtain ⟨low, high⟩ := abs_le.mp near
  have tiny : |z| < 2 ^ 0 := by
    rw [abs_lt]
    constructor <;> linarith
  calc |rounded z - q| ≤ |rounded z - z| + |z - q| := abs_sub_le ..
    _ ≤ 2 ^ 0 / 2 ^ 54 + 0.0005 * 0.001 := by
        refine add_le_add (abs_rounded_sub_le tiny) (near.trans ?_)
        linarith
    _ ≤ 0.000001 := by norm_num

/-- Great numbers are written as whole ones, and those lose nothing when they are read. -/
theorem near_rounded_of_great {m : ℕ} {q : ℝ} (near : |(m : ℝ) - q| ≤ 0.0005 * q)
    (bounded : q < 2 ^ 52) : |rounded m - q| ≤ 0.0005 * q := by
  obtain ⟨-, high⟩ := abs_le.mp near
  have fits : (m : ℝ) < 2 ^ 53 := by linarith
  rw [rounded_natCast (by exact_mod_cast fits)]
  exact near

/-- Four digits are enough for small and for great numbers. -/
theorem near_scientific {num den : ℕ} {q : ℝ} (above : 0 < num) (positive : 0 < den)
    (value : (num / den : ℝ) = q) (size : q ≤ 0.001 ∨ 9999 < q ∧ q < 2 ^ 52) :
    |rounded (scientificValue 3 num den) - q| ≤ max (0.0005 * q) 0.000001 := by
  have near := abs_scientificValue_sub_le above positive 3
  have within : q / (2 * 10 ^ 3) = 0.0005 * q := by ring
  rw [value, within] at near
  rcases size with small | ⟨great, bounded⟩
  · have nonneg : 0 ≤ q := by
      rw [← value]
      positivity
    exact le_max_of_le_right (near_rounded_of_small near nonneg small)
  · obtain ⟨m, whole⟩ := exists_natCast_eq_scientificValue 3 above positive
      (by rw [value]; linarith)
    rw [whole] at near ⊢
    exact le_max_of_le_left (near_rounded_of_great near bounded)

end Scientific

section Short

theorem abs_roundAway_sub_le (x : ℝ) : |(roundAway x : ℝ) - x| ≤ 1 / 2 := by
  unfold roundAway
  split
  · have low := Int.floor_le (-x + 1 / 2)
    have high := Int.lt_floor_add_one (-x + 1 / 2)
    rw [Int.cast_neg, abs_le]
    constructor <;> linarith
  · have low := Int.floor_le (x + 1 / 2)
    have high := Int.lt_floor_add_one (x + 1 / 2)
    rw [abs_le]
    constructor <;> linarith

theorem round_of_small (denotes : Denotes v x) (small : |x| < 2 ^ 62) :
    Binary64.round v = roundAway x := by
  have near := abs_roundAway_sub_le x
  have size : |(roundAway x : ℝ)| < 2 ^ 63 := by
    calc |(roundAway x : ℝ)| ≤ |(roundAway x : ℝ) - x| + |x| := by
          simpa using abs_add_le ((roundAway x : ℝ) - x) x
      _ < 2 ^ 63 := by linarith
  rw [denotes.round_eq, saturate_of_abs_le (by exact_mod_cast size)]

/-- Rounding does not lead to the other side of zero. -/
theorem signOf_mul_natAbs_roundAway {negative : Bool} {r : ℝ} (nonneg : 0 ≤ r) :
    signOf negative * ((roundAway (signOf negative * r)).natAbs : ℝ) =
      roundAway (signOf negative * r) := by
  have floor : 0 ≤ ⌊r + 1 / 2⌋ := Int.floor_nonneg.mpr (by linarith)
  rw [Nat.cast_natAbs, Int.cast_abs]
  cases negative with
  | false =>
    have same : roundAway (signOf false * r) = ⌊r + 1 / 2⌋ := by
      rw [signOf, if_neg Bool.false_ne_true, one_mul, roundAway, if_neg (not_lt.mpr nonneg)]
    rw [same, abs_of_nonneg (Int.cast_nonneg floor)]
    exact one_mul _
  | true =>
    have same : roundAway (signOf true * r) = -⌊r + 1 / 2⌋ := by
      rw [signOf, if_pos rfl, neg_one_mul, roundAway, neg_neg]
      split
      · rfl
      · rename_i zero
        have zero : r = 0 := by linarith
        rw [zero]
        norm_num
    rw [same, Int.cast_neg, abs_neg, abs_of_nonneg (Int.cast_nonneg floor)]
    exact neg_one_mul _

/-- A product of moderate size is rounded twice, to a float and to a whole number. -/
theorem round_mul {factor : Float} {y : ℝ} (first : Denotes v x) (second : Denotes factor y)
    (size : |x * y| < 2 ^ 20) : Binary64.round (v * factor) = roundAway (rounded (x * y)) := by
  have product := (first.mul second).denotes_of_lt (size.trans (by norm_num))
  exact round_of_small product ((abs_rounded_lt size).trans (by norm_num))

theorem abs_roundAway_rounded_sub_le (size : |x| < 2 ^ 20) :
    |(roundAway (rounded x) : ℝ) - x| ≤ 1 / 2 + 1 / 2 ^ 34 := by
  calc |(roundAway (rounded x) : ℝ) - x|
      ≤ |(roundAway (rounded x) : ℝ) - rounded x| + |rounded x - x| := abs_sub_le ..
    _ ≤ 1 / 2 + 2 ^ 20 / 2 ^ 54 := add_le_add (abs_roundAway_sub_le _) (abs_rounded_sub_le size)
    _ = 1 / 2 + 1 / 2 ^ 34 := by norm_num

theorem natAbs_truncate (denotes : Denotes v x) (within : |x| ≤ 9999) :
    (truncate v).natAbs = ⌊|x|⌋₊ := by
  have bounded : |(wholePart x : ℝ)| < 2 ^ 63 := by linarith [abs_wholePart_le x]
  rw [denotes.truncate_eq, saturate_of_abs_le (by exact_mod_cast bounded), natAbs_wholePart]

variable {places : ℕ} {n : ℤ}

theorem denotes_tenPow (few : 10 ^ places < 2 ^ 53) :
    Denotes (Float.ofNat (tenPow places)) (10 ^ places) := by
  have power : Denotes (Float.ofNat (10 ^ places)) ((10 ^ places : ℕ) : ℝ) := denotes_ofNat few
  rwa [Nat.cast_pow, Nat.cast_ofNat] at power

theorem coordinatePlaces_spec {whole : ℕ} (small : whole ≤ 9999) :
    0 < coordinatePlaces whole ∧ (whole + 1) * 10 ^ coordinatePlaces whole ≤ 10 ^ 6 ∧
      (coordinatePlaces whole = 6 ∨ 1 ≤ whole ∧ 10 ^ 5 ≤ whole * 10 ^ coordinatePlaces whole) := by
  unfold coordinatePlaces
  split_ifs <;> omega

/-- With so many places there are seven digits at most, and at least six unless there is none before
the point. -/
structure Places (size : ℝ) (places : ℕ) : Prop where
  some_place : 0 < places
  few : 10 ^ places < 2 ^ 53
  fits : size * 10 ^ places < 2 ^ 20
  enough : places = 6 ∨ 1 ≤ size ∧ 10 ^ 5 ≤ size * 10 ^ places

theorem places_coordinatePlaces {size : ℝ} (nonneg : 0 ≤ size) (within : size ≤ 9999) :
    Places size (coordinatePlaces ⌊size⌋₊) := by
  have floor : ⌊size⌋₊ ≤ 9999 := Nat.floor_le_of_le (by exact_mod_cast within)
  obtain ⟨some_place, fits, enough⟩ := coordinatePlaces_spec floor
  have below := Nat.lt_floor_add_one size
  have above := Nat.floor_le nonneg
  generalize coordinatePlaces ⌊size⌋₊ = places at *
  generalize ⌊size⌋₊ = whole at *
  constructor
  case some_place => exact some_place
  case few =>
    have one : 1 * 10 ^ places ≤ (whole + 1) * 10 ^ places :=
      Nat.mul_le_mul_right _ (Nat.le_add_left 1 whole)
    omega
  case fits =>
    calc size * 10 ^ places ≤ (whole + 1) * 10 ^ places := by gcongr
      _ ≤ 10 ^ 6 := by exact_mod_cast fits
      _ < 2 ^ 20 := by norm_num
  case enough =>
    refine enough.imp_right fun ⟨some_whole, digits⟩ => ⟨?_, ?_⟩
    · exact le_trans (by exact_mod_cast some_whole) above
    · calc (10 ^ 5 : ℝ) ≤ whole * 10 ^ places := by exact_mod_cast digits
        _ ≤ size * 10 ^ places := by gcongr

/-- The digits of a coordinate as one whole number. -/
structure Digits (x : ℝ) (places : ℕ) (n : ℤ) : Prop extends Places |x| places where
  near : |(n : ℝ) - x * 10 ^ places| ≤ 1 / 2 + 1 / 2 ^ 34

theorem digits_spec {negative : Bool} {q : ℝ} (denotes : Denotes v x) (nonneg : 0 ≤ q)
    (value : x = signOf negative * q) (within : |x| ≤ 9999) :
    let places := coordinatePlaces (truncate v).natAbs
    let n := round (v * Float.ofNat (tenPow places))
    Digits x places n ∧ signOf negative * (n.natAbs : ℝ) = n := by
  have enough := places_coordinatePlaces (abs_nonneg x) within
  simp only [natAbs_truncate denotes within]
  generalize coordinatePlaces ⌊|x|⌋₊ = places at *
  have size : |x * 10 ^ places| < 2 ^ 20 := by
    have power : (0 : ℝ) < 10 ^ places := by positivity
    rw [abs_mul, abs_of_pos power]
    exact enough.fits
  rw [round_mul denotes (denotes_tenPow enough.few) size]
  refine ⟨⟨enough, abs_roundAway_rounded_sub_le size⟩, ?_⟩
  rw [value, mul_assoc, rounded_signOf_mul]
  exact signOf_mul_natAbs_roundAway (rounded_nonneg (by positivity))

/-- What is lost is less than the last digit. -/
theorem Digits.off_le (digits : Digits x places n) :
    |(n / 10 ^ places : ℝ) - x| ≤ (1 / 2 + 1 / 2 ^ 34) / 10 ^ places := by
  have power : (0 : ℝ) < 10 ^ places := by positivity
  have apart : (n / 10 ^ places : ℝ) - x = (n - x * 10 ^ places) / 10 ^ places := by
    field_simp
  rw [apart, abs_div, abs_of_pos power]
  exact div_le_div_of_nonneg_right digits.near power.le

theorem Digits.size_lt (digits : Digits x places n) (within : |x| ≤ 9999) :
    |(n / 10 ^ places : ℝ)| < 2 ^ 14 := by
  have power : (1 : ℝ) ≤ 10 ^ places := one_le_pow₀ (by norm_num)
  have part : (1 / 2 + 1 / 2 ^ 34 : ℝ) / 10 ^ places ≤ 1 := by
    rw [div_le_one (by positivity)]
    linarith
  calc |(n / 10 ^ places : ℝ)| ≤ |(n / 10 ^ places : ℝ) - x| + |x| := by
        simpa using abs_add_le ((n / 10 ^ places : ℝ) - x) x
    _ ≤ 1 + 9999 := add_le_add (digits.off_le.trans part) within
    _ < 2 ^ 14 := by norm_num

theorem Digits.near_rounded (digits : Digits x places n) (within : |x| ≤ 9999) :
    |rounded (n / 10 ^ places : ℝ) - x| ≤ max (0.0005 * |x|) 0.000001 := by
  have read := abs_rounded_sub_le (digits.size_lt within)
  have off := digits.off_le
  have total : |rounded (n / 10 ^ places : ℝ) - x| ≤
      2 ^ 14 / 2 ^ 54 + (1 / 2 + 1 / 2 ^ 34) / 10 ^ places :=
    (abs_sub_le ..).trans (add_le_add read off)
  rcases digits.enough with rfl | ⟨great, enough⟩
  · refine le_max_of_le_right (total.trans ?_)
    norm_num
  · have relative : (1 / 2 + 1 / 2 ^ 34 : ℝ) / 10 ^ places ≤
        (1 / 2 + 1 / 2 ^ 34) * |x| / 10 ^ 5 := by
      rw [div_le_div_iff₀ (by positivity) (by positivity), mul_assoc]
      gcongr
    refine le_max_of_le_left ?_
    linarith

end Short

section Coordinate

/-- The text is a number of path data as a whole. What is read from it is close to the number that
it was written for, unless that is far beyond 64 bits, and it is the same if that is whole and has
53 bits. -/
structure ReadsBack (text : String) (x : ℝ) (w : Float) (y : ℝ) : Prop where
  token : PathData.Token .number (.number w) text.toList []
  read : PathData.number text.toList = .ok (w, [])
  denotes : Denotes w y
  near : |y - x| ≤ max (0.0005 * |x|) 0.000001 ↔ 0.9995 * |x| ≤ 2 ^ 63
  whole : (∃ n : ℤ, x = n) → |x| < 2 ^ 53 → y = x

/-- A whole number is written with all its digits. -/
theorem exists_readsBack_whole (denotes : Denotes v x) (nearly : Int.fract |x| < 1 / 2 ^ 52) :
    ∃ w y, ReadsBack (toString (truncate v)) x w y := by
  have size : |(truncate v : ℝ)| < 2 ^ 64 := by
    rw [denotes.truncate_eq]
    obtain ⟨low, high⟩ := saturate_bounds (wholePart x)
    have bounded : |saturate (wholePart x)| < 2 ^ 64 := by
      unfold leastWhole at low
      unfold greatestWhole at high
      rw [abs_lt]
      omega
    exact_mod_cast bounded
  obtain ⟨w, token, read, value⟩ := (spells_int (truncate v)).exists_read size
  rw [denotes.truncate_eq, rounded_saturate denotes] at value
  refine ⟨w, _, token, read, value, near_whole_iff denotes nearly, ?_⟩
  rintro ⟨n, rfl⟩ small
  rw [wholePart_intCast, confined_of_abs_le (small.le.trans (by norm_num))]

/-- Other numbers only have to be close. -/
theorem Fractional.exists_readsBack (fractional : Fractional x) (spells : Spells text z)
    (size : |z| < 2 ^ 64) (near : |rounded z - x| ≤ max (0.0005 * |x|) 0.000001) :
    ∃ w y, ReadsBack text x w y := by
  obtain ⟨w, token, read, value⟩ := spells.exists_read size
  refine ⟨w, _, token, read, value, iff_of_true near ?_, ?_⟩
  · linarith [fractional.small]
  · rintro ⟨n, whole⟩ -
    exact absurd whole (fractional.not_int n)

theorem denotes_9999 : Denotes 9999.0 9999 :=
  denotes_of_decode
    (show decode 9999.0 = .finite false (9999 * 2 ^ 39) (-39) by decide +kernel)
    (by norm_num [signed])

/-- The bounds of the numbers that are written without an exponent. -/
theorem exists_outside_iff (denotes : Denotes v x) :
    ∃ least : ℝ, least ≤ 0.001 ∧
      ((decide (9999.0 < v.abs) || decide (v.abs ≤ 0.0001)) = true ↔
        9999 < |x| ∨ |x| ≤ least) := by
  have denotes_least : Denotes 0.0001 (7378697629483821 * 2 ^ (-66 : ℤ)) :=
    denotes_of_decode
      (show decode 0.0001 = .finite false 7378697629483821 (-66) by decide +kernel)
      (by norm_num [signed])
  refine ⟨7378697629483821 * 2 ^ (-66 : ℤ), by norm_num, ?_⟩
  rw [Bool.or_eq_true, decide_eq_true_iff, decide_eq_true_iff, denotes_9999.lt_iff denotes.abs,
    denotes.abs.le_iff denotes_least]

section Written

variable {negative : Bool} {mantissa : ℕ} {e : ℤ}

/-- Four digits are written of numbers that are very small or great. -/
theorem Fractional.exists_readsBack_scientific (fractional : Fractional x)
    (read : decode v = .finite negative mantissa e)
    (value : x = signOf negative * (mantissa * 2 ^ e))
    (outside : |x| ≤ 0.001 ∨ 9999 < |x|) : ∃ w y, ReadsBack (scientific 3 v) x w y := by
  have size : |x| = mantissa * 2 ^ e := by rw [value, abs_decoded]
  obtain ⟨positive, ratio⟩ := quotient_spec mantissa e
  rw [← size] at ratio
  have above : 0 < (quotient mantissa e).1 := by
    refine Nat.pos_of_ne_zero fun zero => fractional.nonzero.ne' ?_
    rw [← ratio, zero, Nat.cast_zero, zero_div]
  have near := near_scientific above positive ratio
    (outside.imp_right fun great => ⟨great, fractional.small⟩)
  have off := abs_scientificValue_sub_le above positive 3
  refine fractional.exists_readsBack (spells_scientific read above) ?_ ?_
  · have small := fractional.small
    rw [ratio] at off
    obtain ⟨low, high⟩ := abs_le.mp off
    rw [abs_signOf_mul, abs_lt]
    constructor <;> linarith
  · rw [size] at near ⊢
    rw [rounded_signOf_mul, value, ← mul_sub, abs_signOf_mul]
    exact near

/-- The others are written with all the places that they are given. -/
theorem Fractional.exists_readsBack_short (fractional : Fractional x) (denotes : Denotes v x)
    (value : x = signOf negative * (mantissa * 2 ^ e)) (within : |x| ≤ 9999) :
    let places := coordinatePlaces (truncate v).natAbs
    let n := round (v * Float.ofNat (tenPow places))
    ∃ w y, ReadsBack (withSign negative (shortText places n.natAbs)) x w y := by
  intro places n
  obtain ⟨digits, sign⟩ := digits_spec denotes (by positivity) value within
  have spells := (positional_shortText digits.some_place n.natAbs).spells_withSign negative
  rw [← mul_div_assoc, sign] at spells
  refine fractional.exists_readsBack spells ?_ ?_
  · exact (digits.size_lt within).trans (by norm_num)
  · exact digits.near_rounded within

end Written

theorem exists_readsBack (denotes : Denotes v x) :
    ∃ w y, ReadsBack (coordinate v) x w y := by
  obtain ⟨negative, mantissa, e, read, bounded, value⟩ := denotes.exists_decode
  obtain ⟨least, small, outside_iff⟩ := exists_outside_iff denotes
  unfold coordinate
  rw [read]
  simp only
  split_ifs with whole outside
  · rw [nearlyWhole_iff, ← abs_decoded negative, ← value] at whole
    exact exists_readsBack_whole denotes whole
  · refine (fractional_of_decode bounded value whole).exists_readsBack_scientific read value ?_
    rcases outside_iff.mp outside with great | less
    · exact .inr great
    · exact .inl (less.trans small)
  · have inside := mt outside_iff.mpr outside
    rw [not_or, not_lt] at inside
    exact (fractional_of_decode bounded value whole).exists_readsBack_short denotes value inside.1

/-- Every finite coordinate is written as a number of path data. -/
theorem coordinate_reads_back (v : Float) (finite : v.isFinite = true) :
    ∃ x w y, Denotes v x ∧ ReadsBack (coordinate v) x w y := by
  obtain ⟨x, denotes⟩ := exists_denotes_of_isFinite finite
  obtain ⟨w, y, back⟩ := exists_readsBack denotes
  exact ⟨x, w, y, denotes, back⟩

theorem tenth_reads_back : ∃ x w y, Denotes 0.1 x ∧ ReadsBack (coordinate 0.1) x w y :=
  coordinate_reads_back 0.1 rfl

/-- A great number is written as the end of the range, and that is what is read back. -/
theorem great_coordinate_lost : coordinate 1e300 = "9223372036854775807" ∧
    ∃ x w y, Denotes 1e300 x ∧ PathData.number (coordinate 1e300).toList = .ok (w, []) ∧
      Denotes w y ∧ ¬ |y - x| ≤ max (0.0005 * |x|) 0.000001 := by
  have denotes : Denotes 1e300 (6724873095247260 * 2 ^ 944) :=
    denotes_of_decode
      (show decode 1e300 = .finite false 6724873095247260 944 by decide +kernel)
      (by norm_num [signed])
  obtain ⟨w, y, back⟩ := exists_readsBack denotes
  refine ⟨by decide +kernel, _, w, y, denotes, back.read, back.denotes, mt back.near.mp ?_⟩
  have great : (2 : ℝ) ^ 63 ≤ 2 ^ 944 := pow_le_pow_right₀ one_le_two (by norm_num)
  rw [abs_of_nonneg (by positivity), not_le]
  calc (2 : ℝ) ^ 63 < 0.9995 * (6724873095247260 * 2 ^ 63) := by norm_num
    _ ≤ 0.9995 * (6724873095247260 * 2 ^ 944) := by gcongr

end Coordinate

end VectorPaint.Decimal
