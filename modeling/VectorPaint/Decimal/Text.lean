import VectorPaint.Scalar.Binary64
import VectorPaint.Decimal.Numeral

/-!
Decimal texts of floats. Each is written from the exact value: with a fixed number of places, in
scientific notation with one digit before the point, or in the short form that coordinates are
shown in.
-/
namespace VectorPaint.Decimal

open Binary64

/-- A number written with exactly `width` digits. -/
def padded (width n : Nat) : String :=
  let digits := Nat.toDigits 10 n
  String.ofList (List.replicate (width - digits.length) '0' ++ digits)

/-- The sign in front of a text. -/
def withSign (negative : Bool) (text : String) : String :=
  if negative then "-" ++ text else text

/-- The magnitude `mantissa * 2 ^ exponent` as a quotient. -/
def quotient (mantissa : Nat) : Int → Nat × Nat
  | .ofNat k => (mantissa * twoPow k, 1)
  | .negSucc k => (mantissa, twoPow (k + 1))

/-- The number `n / 10 ^ places` with all its places. -/
def fixedText (places n : Nat) : String :=
  let whole := toString (n / tenPow places)
  if places = 0 then whole else whole ++ "." ++ padded places (n % tenPow places)

/-- Removes the zeros at the end of a list of digits. -/
def withoutTrailingZeros (digits : List Char) : List Char :=
  (digits.reverse.dropWhile (· == '0')).reverse

/-- The number `n / 10 ^ places` without zeros at its end, and without a point if it is whole. -/
def shortText (places n : Nat) : String :=
  let whole := toString (n / tenPow places)
  match withoutTrailingZeros (padded places (n % tenPow places)).toList with
  | [] => whole
  | fraction => whole ++ "." ++ String.ofList fraction

/-- A value with a fixed number of places; a half goes to the even neighbour. -/
def fixed (places : Nat) (x : Float) : String :=
  match decode x with
  | .nan => "NaN"
  | .infinite negative => withSign negative "inf"
  | .finite negative mantissa exponent =>
    let (num, den) := quotient mantissa exponent
    withSign negative (fixedText places (roundShifted num den (.ofNat places)))

/-- The magnitude `num / den` with one digit before the point and `places` after it. Rounding up
to the next power of ten raises the exponent. -/
def scientificText (places num den : Nat) : String :=
  if num = 0 then fixedText places 0 ++ "e0"
  else
    let e := leadingExponent num den
    let n := roundShifted num den (Int.ofNat places - e)
    if n = tenPow (places + 1) then fixedText places (tenPow places) ++ "e" ++ toString (e + 1)
    else fixedText places n ++ "e" ++ toString e

/-- A value in scientific notation with a fixed number of places. -/
def scientific (places : Nat) (x : Float) : String :=
  match decode x with
  | .nan => "NaN"
  | .infinite negative => withSign negative "inf"
  | .finite negative mantissa exponent =>
    let (num, den) := quotient mantissa exponent
    withSign negative (scientificText places num den)

/-- The fraction of `mantissa * 2 ^ exponent` is below `2 ^ (-52)`. -/
def nearlyWhole (mantissa : Nat) : Int → Bool
  | .ofNat _ => true
  | .negSucc k => decide (mantissa % twoPow (k + 1) * twoPow 52 < twoPow (k + 1))

/-- How many places a coordinate is given, by the whole part of its magnitude: seven digits for
one below ten thousand, one fewer after a power of ten. -/
def coordinatePlaces (whole : Nat) : Nat :=
  if whole = 0 then 6 else if whole < 10 then 5 else if whole < 100 then 4
  else if whole < 1000 then 3 else 2

/-- The short text of a coordinate. Whole numbers are held within the signed 64-bit range; very
large and very small values are in scientific notation with four digits; all others are rounded to
at most seven digits, a half away from zero. -/
def coordinate (x : Float) : String :=
  match decode x with
  | .nan => "NaN"
  | .infinite negative => withSign negative "inf"
  | .finite negative mantissa exponent =>
    if nearlyWhole mantissa exponent then toString (truncate x)
    else if 9999.0 < x.abs || x.abs ≤ 0.0001 then scientific 3 x
    else
      let places := coordinatePlaces (truncate x).natAbs
      let n := round (x * Float.ofNat (tenPow places))
      withSign negative (shortText places n.natAbs)

end VectorPaint.Decimal
