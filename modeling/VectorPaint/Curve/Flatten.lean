import VectorPaint.Plane.Basic

/-!
Curves and their flattening into chained segments. A flattening hands out one segment at a time; it
starts at the start of the curve, samples it at equal steps of the parameter, and ends exactly at
the end of the curve, whatever the curve's own sample at parameter one is. Quadratic and cubic
curves are given by their control points.
-/
namespace VectorPaint

/-- A curve over the parameter range from zero to one. -/
class Curve (κ : Type) (α : outParam Type) where
  start : κ → Point α
  stop : κ → Point α
  pointAt : κ → α → Point α

/-- A flattening under way: `taken` of `steps` segments were handed out, the last of them ending
at `previous`. -/
structure Flattening (κ α : Type) where
  curve : κ
  steps : Nat
  taken : Nat
  previous : Point α

section Steps

variable {κ α : Type} [Scalar α] [Curve κ α]

/-- Begins a flattening; at least one segment is always made. -/
def Curve.flatten (curve : κ) (steps : Nat) : Flattening κ α :=
  ⟨curve, max steps 1, 0, Curve.start curve⟩

namespace Flattening

/-- How many segments are still to come. -/
def remaining {κ α : Type} (f : Flattening κ α) : Nat := f.steps - f.taken

/-- The least and the greatest number of segments that may still come; they are the same. -/
def sizeHint {κ α : Type} (f : Flattening κ α) : Nat × Option Nat :=
  (f.remaining, some f.remaining)

/-- Where the segment after `taken` others ends. -/
def vertex (f : Flattening κ α) : Point α :=
  if f.taken + 1 = f.steps then Curve.stop f.curve
  else Curve.pointAt f.curve (Scalar.ofNat (f.taken + 1) / Scalar.ofNat f.steps)

/-- The next segment, and the flattening after it. -/
def next? (f : Flattening κ α) : Option (Segment α × Flattening κ α) :=
  if f.taken < f.steps then
    some (⟨f.previous, f.vertex⟩, { f with taken := f.taken + 1, previous := f.vertex })
  else none

theorem remaining_lt_of_next? {f g : Flattening κ α} {s : Segment α}
    (step : f.next? = some (s, g)) : g.remaining < f.remaining := by
  unfold next? at step
  split at step
  · cases step
    simp only [remaining]
    omega
  · simp at step

/-- All segments that are still to come. -/
def toList (f : Flattening κ α) : List (Segment α) :=
  match _step : f.next? with
  | none => []
  | some (s, g) => s :: toList g
termination_by f.remaining
decreasing_by exact remaining_lt_of_next? (by assumption)

end Flattening

end Steps

structure Quadratic (α : Type) where
  start : Point α
  control : Point α
  stop : Point α
  deriving Repr

structure Cubic (α : Type) where
  start : Point α
  control₁ : Point α
  control₂ : Point α
  stop : Point α
  deriving Repr

variable {α : Type} [Scalar α]

open Scalar Point

/-- The mean of the control points with the weights of a squared sum. -/
def Quadratic.pointAt (c : Quadratic α) (t : α) : Point α :=
  let u := ofNat 1 - t
  scale (u * u) c.start + scale (ofNat 2 * u * t) c.control + scale (t * t) c.stop

/-- The mean of the control points with the weights of a cubed sum. -/
def Cubic.pointAt (c : Cubic α) (t : α) : Point α :=
  let u := ofNat 1 - t
  scale (u * u * u) c.start + scale (ofNat 3 * u * u * t) c.control₁ +
    scale (ofNat 3 * u * t * t) c.control₂ + scale (t * t * t) c.stop

/-- The control point with which a following curve continues smoothly. -/
def Quadratic.smooth (c : Quadratic α) : Point α := c.stop.reflect c.control

/-- The control point with which a following curve continues smoothly. -/
def Cubic.smooth (c : Cubic α) : Point α := c.stop.reflect c.control₂

instance : Curve (Segment α) α where
  start := Segment.start
  stop := Segment.stop
  pointAt := Segment.pointAt

instance : Curve (Quadratic α) α where
  start := Quadratic.start
  stop := Quadratic.stop
  pointAt := Quadratic.pointAt

instance : Curve (Cubic α) α where
  start := Cubic.start
  stop := Cubic.stop
  pointAt := Cubic.pointAt

end VectorPaint
