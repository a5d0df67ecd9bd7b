import VectorPaint.Scalar

/-!
Points, boxes and segments of the plane. Points also serve as vectors: lengths and angles are those
of the Euclidean plane, and two vectors have an angle between them only if neither is nearly zero.
Boxes have their sides along the axes and are closed: sides and corners belong to them. Of a segment
there are its box, the distance of a point from it, and the part of it that lies in a box.
-/
namespace VectorPaint

structure Point (α : Type) where
  x : α
  y : α
  deriving Repr

namespace Point

variable {α : Type} [Scalar α]

instance : BEq (Point α) where
  beq p q := p.x == q.x && p.y == q.y

instance : Add (Point α) where
  add p q := ⟨p.x + q.x, p.y + q.y⟩

instance : Sub (Point α) where
  sub p q := ⟨p.x - q.x, p.y - q.y⟩

def origin : Point α := ⟨Scalar.ofNat 0, Scalar.ofNat 0⟩

@[inline] def scale (k : α) (p : Point α) : Point α := ⟨k * p.x, k * p.y⟩

def divide (p : Point α) (k : α) : Point α := ⟨p.x / k, p.y / k⟩

def isFinite (p : Point α) : Bool :=
  Scalar.isFinite p.x && Scalar.isFinite p.y

def length (p : Point α) : α := Scalar.hypot p.x p.y

def distance (p q : Point α) : α := (p - q).length

@[inline] def dot (p q : Point α) : α := p.x * q.x + p.y * q.y

@[inline] def cross (p q : Point α) : α := p.x * q.y - p.y * q.x

/-- Turns a vector about the origin; the angle is in radians. -/
def rotate (p : Point α) (angle : α) : Point α :=
  let s := Scalar.sin angle
  let c := Scalar.cos angle
  ⟨p.x * c - p.y * s, p.x * s + p.y * c⟩

/-- The cosine of the angle between two vectors. -/
def cosBetween (p q : Point α) : Option α :=
  let lengths := p.length * q.length
  if lengths < Scalar.epsilon then none else some (p.dot q / lengths)

/-- The angle from one vector to another, negative when `q` lies on the other side of `p`. A
cosine that rounding has moved past one is held at one. -/
def angleTo (p q : Point α) : Option α :=
  (p.cosBetween q).map fun c =>
    let angle := Scalar.acos (Scalar.clamp c (-Scalar.ofNat 1) (Scalar.ofNat 1))
    if p.cross q < Scalar.ofNat 0 then -angle else angle

/-- Both coordinates agree up to the tolerance. -/
def near (p q : Point α) : Bool :=
  decide (Scalar.abs (p.x - q.x) < Scalar.epsilon) &&
    decide (Scalar.abs (p.y - q.y) < Scalar.epsilon)

/-- The control point opposite to `control`, as seen from `p`. -/
def reflect (p control : Point α) : Point α := scale (Scalar.ofNat 2) p - control

end Point

structure Box (α : Type) where
  low : Point α
  high : Point α
  deriving Repr

namespace Box

variable {α : Type} [Scalar α]

instance : BEq (Box α) where
  beq a b := a.low == b.low && a.high == b.high

/-- The box with two given opposite corners. -/
def ofCorners (p q : Point α) : Box α :=
  let (x0, x1) := if p.x ≤ q.x then (p.x, q.x) else (q.x, p.x)
  let (y0, y1) := if p.y ≤ q.y then (p.y, q.y) else (q.y, p.y)
  ⟨⟨x0, y0⟩, ⟨x1, y1⟩⟩

/-- The box of a grid of unit squares whose first one has its corner at `(col, row)`. -/
def ofCells (col row width height : Nat) : Box α :=
  ofCorners ⟨Scalar.ofNat col, Scalar.ofNat row⟩
    ⟨Scalar.ofNat (col + width), Scalar.ofNat (row + height)⟩

def width (b : Box α) : α := b.high.x - b.low.x

def height (b : Box α) : α := b.high.y - b.low.y

def contains (b : Box α) (p : Point α) : Bool :=
  decide (b.low.x ≤ p.x) && decide (p.x ≤ b.high.x) &&
    decide (b.low.y ≤ p.y) && decide (p.y ≤ b.high.y)

/-- Grows the box just enough to hold a point. -/
def extend (b : Box α) (p : Point α) : Box α :=
  ⟨⟨Scalar.least b.low.x p.x, Scalar.least b.low.y p.y⟩,
    ⟨Scalar.greatest b.high.x p.x, Scalar.greatest b.high.y p.y⟩⟩

/-- Moves every side outwards. -/
def inflate (b : Box α) (margin : α) : Box α :=
  ⟨b.low - ⟨margin, margin⟩, b.high + ⟨margin, margin⟩⟩

/-- The common part of two ranges, if they meet. -/
def meetRanges (low0 high0 low1 high1 : α) : Option (α × α) :=
  if high1 < low0 then none
  else if high0 < low1 then none
  else some (Scalar.greatest low0 low1, Scalar.least high0 high1)

/-- The common part of two boxes, if they meet. -/
def meet (a b : Box α) : Option (Box α) := do
  let (x0, x1) ← meetRanges a.low.x a.high.x b.low.x b.high.x
  let (y0, y1) ← meetRanges a.low.y a.high.y b.low.y b.high.y
  return ofCorners ⟨x0, y0⟩ ⟨x1, y1⟩

end Box

/-- The segment from `start` to `stop`. -/
structure Segment (α : Type) where
  start : Point α
  stop : Point α
  deriving Repr

namespace Segment

variable {α : Type} [Scalar α]

def direction (s : Segment α) : Point α := s.stop - s.start

def isFinite (s : Segment α) : Bool := s.start.isFinite && s.stop.isFinite

/-- The point that divides the segment in the ratio `t : 1 - t`. -/
def pointAt (s : Segment α) (t : α) : Point α :=
  Point.scale (Scalar.ofNat 1 - t) s.start + Point.scale t s.stop

/-- The distance from a point to the nearest point of the segment: the foot of the perpendicular,
or the nearer end where the foot lies outside. -/
@[specialize] def distance (s : Segment α) (p : Point α) : α :=
  let direction := s.direction
  let squared := direction.dot direction
  if squared == Scalar.ofNat 0 then p.distance s.start
  else
    let t := Scalar.clamp ((p - s.start).dot direction / squared) (Scalar.ofNat 0) (Scalar.ofNat 1)
    p.distance (s.start + Point.scale t direction)

/-- The least box that holds both ends. -/
def box (s : Segment α) : Box α := Box.ofCorners s.start s.stop

/-- Grows a box to hold both ends. -/
def extendBox (s : Segment α) (b : Box α) : Box α := (b.extend s.start).extend s.stop

/-- The range of parameters that is left when a segment is cut by the half plane
`t * speed ≤ room`. A segment parallel to the border is kept or dropped as a whole. -/
def cutRange (range : α × α) (speed room : α) : Option (α × α) :=
  if Scalar.abs speed < Scalar.epsilon then
    if room < Scalar.ofNat 0 then none else some range
  else
    let t := room / speed
    if speed < Scalar.ofNat 0 then
      if range.2 < t then none else some (Scalar.greatest range.1 t, range.2)
    else
      if t < range.1 then none else some (range.1, Scalar.least range.2 t)

/-- The part of the segment that lies in a box, found by cutting the parameter range at the left,
right, upper and lower side in turn. -/
def clip (s : Segment α) (b : Box α) : Option (Segment α) := do
  let d := s.direction
  let range ← cutRange (Scalar.ofNat 0, Scalar.ofNat 1) (-d.x) (s.start.x - b.low.x)
  let range ← cutRange range d.x (b.high.x - s.start.x)
  let range ← cutRange range (-d.y) (s.start.y - b.low.y)
  let range ← cutRange range d.y (b.high.y - s.start.y)
  return ⟨s.start + Point.scale range.1 d, s.start + Point.scale range.2 d⟩

end Segment
end VectorPaint
