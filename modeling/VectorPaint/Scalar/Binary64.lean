import VectorPaint.Scalar

/-!
Binary floating point of 64 bits as a scalar. A float is taken apart into sign, mantissa and
exponent, so that rounding to whole numbers is exact integer arithmetic. Whole numbers are held
within the signed 64-bit range, and an indeterminate value counts as zero.
-/
namespace VectorPaint.Binary64

/-- What a float stands for: a finite one is `mantissa * 2 ^ exponent` with a sign. -/
inductive Value where
  | nan
  | infinite (negative : Bool)
  | finite (negative : Bool) (mantissa : Nat) (exponent : Int)
  deriving Repr, DecidableEq

/-- A power of two. -/
def twoPow (k : Nat) : Nat := Nat.pow 2 k

/-- Reads the sign bit, the eleven exponent bits and the fraction of 52 bits. -/
def decode (x : Float) : Value :=
  let bits := x.toBits.toNat
  let negative := decide (bits / twoPow 63 = 1)
  let field := bits / twoPow 52 % twoPow 11
  let fraction := bits % twoPow 52
  if field = 2047 then (if fraction = 0 then .infinite negative else .nan)
  else if field = 0 then .finite negative fraction (-1074)
  else .finite negative (fraction + twoPow 52) (Int.ofNat field - 1075)

/-- The ends of the signed 64-bit range. -/
def leastWhole : Int := -9223372036854775808

def greatestWhole : Int := 9223372036854775807

/-- Holds a whole number within the signed 64-bit range. -/
def saturate (n : Int) : Int :=
  if n < leastWhole then leastWhole else if greatestWhole < n then greatestWhole else n

/-- The sign put in front of a magnitude. -/
def signed (negative : Bool) (n : Nat) : Int :=
  if negative then -n else n

/-- The largest whole number that is at most `n * 2 ^ exponent`. -/
def floorScaled (n : Int) : Int → Int
  | .ofNat k => n * twoPow k
  | .negSucc k => n >>> (k + 1)

/-- The whole number nearest to `n * 2 ^ exponent`; a half goes up. -/
def roundScaled (n : Nat) : Int → Nat
  | .ofNat k => n * twoPow k
  | .negSucc k => (n + twoPow k) >>> (k + 1)

/-- Applies a rounding to the finite values; the infinite ones go to the ends of the range. -/
def toWhole (round : Bool → Nat → Int → Int) (x : Float) : Int :=
  match decode x with
  | .nan => 0
  | .infinite negative => if negative then leastWhole else greatestWhole
  | .finite negative mantissa exponent => saturate (round negative mantissa exponent)

/-- Rounds down. -/
def floor : Float → Int :=
  toWhole fun negative mantissa exponent => floorScaled (signed negative mantissa) exponent

/-- Rounds up. -/
def ceil : Float → Int :=
  toWhole fun negative mantissa exponent => -floorScaled (-signed negative mantissa) exponent

/-- Drops the fraction. -/
def truncate : Float → Int :=
  toWhole fun negative mantissa exponent =>
    signed negative (floorScaled mantissa exponent).toNat

/-- Rounds to the nearest whole number, a half away from zero. -/
def round : Float → Int :=
  toWhole fun negative mantissa exponent => signed negative (roundScaled mantissa exponent)

/-- The distance between 1 and the next float. -/
def epsilon : Float := 2.220446049250313e-16

/-- The float nearest to half a turn. -/
def pi : Float := 3.141592653589793

/-- The length of a vector. Squares that would leave the range are taken of the ratio of the
smaller to the larger side, so the length is infinite only when it has to be. -/
def hypot (x y : Float) : Float :=
  let a := x.abs
  let b := y.abs
  if a.isInf then a
  else if b.isInf then b
  else
    let large := if a < b then b else a
    let small := if a < b then a else b
    if 1e-140 < large && large < 1e150 then (x * x + y * y).sqrt
    else if large == 0 then a + b
    else
      let ratio := small / large
      large * (1 + ratio * ratio).sqrt

end Binary64

instance : Scalar Float where
  decidableLT := inferInstance
  decidableLE := inferInstance
  ofNat := Float.ofNat
  epsilon := Binary64.epsilon
  pi := Binary64.pi
  isFinite := Float.isFinite
  abs := Float.abs
  sqrt := Float.sqrt
  hypot := Binary64.hypot
  sin := Float.sin
  cos := Float.cos
  acos := Float.acos
  floor := Binary64.floor
  ceil := Binary64.ceil

end VectorPaint
