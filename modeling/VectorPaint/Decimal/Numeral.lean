/-!
Written numbers: an optional sign, digits with an optional point among or around them, and an
optional exponent. Reading takes the longest such text; a number read from another one is always
followed by a shorter rest. The rounding of quotients and the decimal sizes of numbers stand first.
-/
namespace VectorPaint.Decimal

/-- The whole number nearest to `num / den`; a half goes to the even neighbour. -/
def roundHalfEven (num den : Nat) : Nat :=
  let quotient := num / den
  let twice := 2 * (num % den)
  if den < twice || (twice = den && quotient % 2 = 1) then quotient + 1 else quotient

/-- A power of ten. -/
def tenPow (k : Nat) : Nat := Nat.pow 10 k

/-- How many decimal digits a number has; zero has one. -/
def digitCount (n : Nat) : Nat :=
  (Nat.toDigits 10 n).length

/-- The `e` with `10 ^ e ≤ num / den < 10 ^ (e + 1)`, for a positive quotient. -/
def leadingExponent (num den : Nat) : Int :=
  let e := Int.ofNat (digitCount num) - Int.ofNat (digitCount den)
  let reached :=
    match e with
    | .ofNat k => decide (den * tenPow k ≤ num)
    | .negSucc k => decide (den ≤ num * tenPow (k + 1))
  if reached then e else e - 1

/-- The whole number nearest to `num / den * 10 ^ shift`; a half goes to the even neighbour. -/
def roundShifted (num den : Nat) : Int → Nat
  | .ofNat k => roundHalfEven (num * tenPow k) den
  | .negSucc k => roundHalfEven num (den * tenPow (k + 1))

/-- A written number, its digits as they stand before and after the point. -/
structure Numeral where
  negative : Bool
  whole : List Char
  fraction : List Char
  exponent : Int
  deriving Repr, DecidableEq

namespace Numeral

/-- Why a text does not begin with a number. -/
inductive Problem where
  | noDigits
  | noExponentDigits
  deriving Repr, DecidableEq

/-- An optional sign: whether it is a minus, and what follows. -/
def takeSign : List Char → Bool × List Char
  | '-' :: rest => (true, rest)
  | '+' :: rest => (false, rest)
  | text => (false, text)

/-- The digits after an optional point, and what follows. -/
def takeFraction : List Char → List Char × List Char
  | '.' :: rest => (rest.takeWhile Char.isDigit, rest.dropWhile Char.isDigit)
  | text => ([], text)

/-- The number that digits stand for. -/
def digitsValue (digits : List Char) : Nat :=
  digits.foldl (fun n c => 10 * n + (c.toNat - '0'.toNat)) 0

/-- The digits of an exponent, after its letter. -/
def takeExponent (text : List Char) : Option (Int × List Char) :=
  let (negative, text) := takeSign text
  let digits := text.takeWhile Char.isDigit
  if digits.isEmpty then none
  else
    let n := digitsValue digits
    some (if negative then -n else n, text.dropWhile Char.isDigit)

/-- An optional exponent: zero without one. A letter `e` has to begin one. -/
def takeOptionalExponent : List Char → Option (Int × List Char)
  | 'e' :: rest | 'E' :: rest => takeExponent rest
  | text => some (0, text)

/-- The longest number at the front of a text, and what follows it. -/
def read (text : List Char) : Except Problem (Numeral × List Char) :=
  let (negative, text) := takeSign text
  let whole := text.takeWhile Char.isDigit
  let (fraction, text) := takeFraction (text.dropWhile Char.isDigit)
  if whole.isEmpty && fraction.isEmpty then .error .noDigits
  else
    match takeOptionalExponent text with
    | none => .error .noExponentDigits
    | some (exponent, rest) => .ok (⟨negative, whole, fraction, exponent⟩, rest)

/-- The float nearest to `n * 10 ^ e`. Numbers that are out of range by their decimal size alone
are settled first, so that a long exponent costs nothing. -/
def nearest (n : Nat) (e : Int) : Float :=
  if n = 0 then 0
  else
    let size := Int.ofNat (digitCount n) + e
    if 310 < size then 1 / 0
    else if size < -330 then 0
    else Float.ofScientific n (decide (e < 0)) e.natAbs

/-- The float nearest to a written number. -/
def value (number : Numeral) : Float :=
  let magnitude := nearest (digitsValue (number.whole ++ number.fraction))
    (number.exponent - Int.ofNat number.fraction.length)
  if number.negative then -magnitude else magnitude

/-- The float nearest to the number that is the whole text. -/
def float? (text : List Char) : Option Float :=
  match read text with
  | .ok (number, []) => some number.value
  | _ => none

theorem length_takeSign_le (text : List Char) : (takeSign text).2.length ≤ text.length := by
  unfold takeSign
  split <;> simp

theorem length_dropWhile_le (p : Char → Bool) (text : List Char) :
    (text.dropWhile p).length ≤ text.length :=
  (List.dropWhile_suffix p).length_le

theorem length_takeExponent_le {text rest : List Char} {e : Int}
    (taken : takeExponent text = some (e, rest)) : rest.length ≤ text.length := by
  simp only [takeExponent] at taken
  split at taken
  · simp at taken
  · cases taken
    exact Nat.le_trans (length_dropWhile_le _ _) (length_takeSign_le text)

theorem length_takeOptionalExponent_le {text rest : List Char} {e : Int}
    (taken : takeOptionalExponent text = some (e, rest)) : rest.length ≤ text.length := by
  unfold takeOptionalExponent at taken
  split at taken
  · exact Nat.le_succ_of_le (length_takeExponent_le taken)
  · exact Nat.le_succ_of_le (length_takeExponent_le taken)
  · cases taken
    exact Nat.le_refl _

theorem length_takeFraction (text : List Char) :
    (takeFraction text).1.length + (takeFraction text).2.length ≤ text.length := by
  unfold takeFraction
  split
  · rename_i rest
    have split := congrArg List.length
      (List.takeWhile_append_dropWhile (p := Char.isDigit) (l := rest))
    simp only [List.length_append] at split
    simp only [List.length_cons]
    omega
  · simp

theorem length_lt_of_read {text rest : List Char} {number : Numeral}
    (done : read text = .ok (number, rest)) : rest.length < text.length := by
  have sign := length_takeSign_le text
  simp only [read] at done
  generalize (takeSign text).2 = signless at done sign
  have whole := congrArg List.length
    (List.takeWhile_append_dropWhile (p := Char.isDigit) (l := signless))
  have fraction := length_takeFraction (signless.dropWhile Char.isDigit)
  simp only [List.length_append] at whole
  split at done
  · simp at done
  · rename_i digits
    have some_digit : 0 < (signless.takeWhile Char.isDigit).length +
        (takeFraction (signless.dropWhile Char.isDigit)).1.length := by
      simp only [Bool.and_eq_true, List.isEmpty_iff, not_and] at digits
      by_cases none : signless.takeWhile Char.isDigit = []
      · have := List.length_pos_iff.2 (digits none)
        omega
      · have := List.length_pos_iff.2 none
        omega
    split at done
    · simp at done
    · rename_i taken
      cases done
      have := length_takeOptionalExponent_le taken
      omega

end Numeral
end VectorPaint.Decimal
