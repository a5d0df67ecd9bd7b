/-!
Coordinates. All geometry of the library is written once, over the operations of `Scalar`; it runs
on binary floating point and can be read over an exact field. The operations are not assumed to
obey any law: a comparison with an indeterminate value is false, and `a == a` tells whether `a` is
determinate.
-/
namespace VectorPaint

/-- The arithmetic that geometry needs. `floor` and `ceil` give whole numbers; `epsilon` is the
tolerance below which two coordinates count as equal. -/
class Scalar (α : Type) extends Add α, Sub α, Mul α, Div α, Neg α, LT α, LE α, BEq α where
  decidableLT : DecidableLT α
  decidableLE : DecidableLE α
  ofNat : Nat → α
  epsilon : α
  pi : α
  isFinite : α → Bool
  abs : α → α
  sqrt : α → α
  hypot : α → α → α
  sin : α → α
  cos : α → α
  acos : α → α
  floor : α → Int
  ceil : α → Int

namespace Scalar

attribute [reducible] decidableLT decidableLE

-- A type with operations of its own keeps them; these are for types known only as a `Scalar`.
attribute [instance (100)] toAdd toSub toMul toDiv toNeg toLT toLE toBEq decidableLT decidableLE

variable {α : Type} [Scalar α]

/-- Half of one. -/
@[inline] def half : α := ofNat 1 / ofNat 2

/-- The smaller of two values; an indeterminate one gives way to the other. -/
@[inline] def least (a b : α) : α :=
  if a == a then (if b < a then b else a) else b

/-- The larger of two values; an indeterminate one gives way to the other. -/
@[inline] def greatest (a b : α) : α :=
  if a == a then (if a < b then b else a) else b

/-- Holds a value between two bounds. An indeterminate value stays as it is. -/
@[inline] def clamp (value low high : α) : α :=
  if value < low then low else if high < value then high else value

/-- The order in which positions along a row are visited: indeterminate ones come first. -/
@[inline] def precedes (a b : α) : Bool :=
  !(a == a) || decide (a ≤ b)

/-- The first pixel whose center does not lie before `position`, held between 0 and `limit`. -/
@[inline] def pixelFrom (position : α) (limit : Nat) : Nat :=
  min (ceil (position - half)).toNat limit

end Scalar
end VectorPaint
