import VectorPaint.Curve.Flatten

/-!
Arcs of ellipses, given by center and angles or by their two ends. An arc given by its ends has
the stated radii if an ellipse with them reaches both ends, and otherwise the least multiple of them
that does.
-/
namespace VectorPaint

/-- The part of an ellipse over the angles from `angle` to `angle + extent`. The ellipse is turned
by `rotation` after its radii are laid along the axes. -/
structure Arc (α : Type) where
  center : Point α
  rx : α
  ry : α
  rotation : α
  angle : α
  extent : α
  deriving Repr

namespace Arc

variable {α : Type} [Scalar α]

open Scalar Point

def fullTurn : α := ofNat 2 * pi

/-- A whole ellipse, from its point with the largest `x` on. -/
def ellipse (center : Point α) (rx ry : α) : Arc α :=
  ⟨center, abs rx, abs ry, ofNat 0, ofNat 0, fullTurn⟩

def pointAt (arc : Arc α) (t : α) : Point α :=
  let angle := arc.angle + t * arc.extent
  rotate ⟨arc.rx * cos angle, arc.ry * sin angle⟩ arc.rotation + arc.center

/-- An angle between two vectors, moved to where it is not negative. Such an angle is never beyond
half a turn, so adding one turn is enough. -/
def nonnegativeAngle (angle : α) : α :=
  if angle < ofNat 0 then angle + fullTurn else angle

/-- The angle covered in the direction that `sweep` asks for. -/
def directedExtent (sweep : Bool) (angle : α) : α :=
  let extent := nonnegativeAngle angle
  if !sweep && decide (ofNat 0 < extent) then extent - fullTurn
  else if sweep && decide (extent < ofNat 0) then extent + fullTurn
  else extent

/-- Radii large enough for the ends at `p` and `-p`. -/
def fittedRadii (rx ry : α) (p : Point α) : α × α :=
  let excess := (p.x / rx) * (p.x / rx) + (p.y / ry) * (p.y / ry)
  if ofNat 1 < excess then (rx * sqrt excess, ry * sqrt excess) else (rx, ry)

/-- The center of an ellipse along the axes through `p` and `-p`. There are two of them, one
opposite to the other. -/
def centerThrough (rx ry : α) (p : Point α) (opposite : Bool) : Point α :=
  let spread := (rx * p.y) * (rx * p.y) + (ry * p.x) * (ry * p.x)
  let room := (rx * ry) * (rx * ry) / spread - ofNat 1
  let factor := sqrt (greatest room (ofNat 0))
  scale (if opposite then -factor else factor) ⟨rx * p.y / ry, -ry * p.x / rx⟩

/-- The arc from `source` to `target`. There is none if a radius is zero or the ends coincide; the
rotation is in degrees. -/
def between (source target : Point α) (rx ry rotation : α) (large sweep : Bool) :
    Option (Arc α) := do
  let rx := abs rx
  let ry := abs ry
  if rx == ofNat 0 || ry == ofNat 0 || source.near target then none
  let rotation := rotation * pi / ofNat 180
  let p := rotate (scale half (source - target)) (-rotation)
  let (rx, ry) := fittedRadii rx ry p
  let c := centerThrough rx ry p (large == sweep)
  let toSource : Point α := ⟨(p.x - c.x) / rx, (p.y - c.y) / ry⟩
  let toTarget : Point α := ⟨(-p.x - c.x) / rx, (-p.y - c.y) / ry⟩
  let angle ← angleTo ⟨ofNat 1, ofNat 0⟩ toSource
  let turn ← toSource.angleTo toTarget
  return {
    center := rotate c rotation + scale half (target + source)
    rx, ry, rotation, angle
    extent := directedExtent sweep turn }

instance : Curve (Arc α) α where
  start arc := arc.pointAt (ofNat 0)
  stop arc := arc.pointAt (ofNat 1)
  pointAt := pointAt

end Arc
end VectorPaint
