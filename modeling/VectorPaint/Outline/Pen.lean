import VectorPaint.Curve.Arc
import VectorPaint.Curve.Flatten
import VectorPaint.Plane.Basic

/-!
Outlines, and a pen that draws them. Outlines are chains of straight segments, some of them closed.
A closed chain holds its closing segment as its last one; an open chain is closed by a further
segment only where an area is filled. A pen keeps its position, the start of the last chain and the
chain that is open, if any. Curves are flattened as they are drawn. Drawing without an open chain
opens one where the last one started.
-/
namespace VectorPaint

/-- Which of the parts that an outline bounds count as inside. -/
inductive FillRule where
  | nonZero
  | evenOdd
  deriving Repr, DecidableEq

structure Chain (α : Type) where
  start : Point α
  segments : Array (Segment α)
  closed : Bool

/-- A set of chains that is painted as a whole. -/
structure Outline (α : Type) where
  chains : Array (Chain α)

namespace Chain

variable {α : Type} [Scalar α]

def isEmpty {α : Type} (c : Chain α) : Bool := c.segments.isEmpty

/-- The end of the last segment, or the start of a chain without segments. -/
def stop {α : Type} (c : Chain α) : Point α :=
  match c.segments.back? with
  | some last => last.stop
  | none => c.start

/-- The segments around the area of the chain. -/
def border {α : Type} (c : Chain α) : List (Segment α) :=
  if c.closed || c.isEmpty then c.segments.toList
  else c.segments.toList ++ [⟨c.stop, c.start⟩]

/-- Grows a box by a chain; the first segment of all makes the box. -/
def growBox (box : Option (Box α)) (c : Chain α) : Option (Box α) :=
  c.segments.foldl (fun box s =>
    match box with
    | none => some s.box
    | some b => some (s.extendBox b)) box

def box (c : Chain α) : Option (Box α) := growBox none c

end Chain

namespace Outline

variable {α : Type} [Scalar α]

def empty {α : Type} : Outline α := ⟨#[]⟩

def segmentCount {α : Type} (o : Outline α) : Nat :=
  o.chains.foldl (fun count c => count + c.segments.size) 0

def isEmpty {α : Type} (o : Outline α) : Bool := o.chains.all Chain.isEmpty

def segments {α : Type} (o : Outline α) : List (Segment α) :=
  o.chains.toList.flatMap fun c => c.segments.toList

/-- The segments around the whole area. -/
def border {α : Type} (o : Outline α) : List (Segment α) :=
  o.chains.toList.flatMap Chain.border

/-- The least box that holds all segments; there is none without segments. -/
def box (o : Outline α) : Option (Box α) := o.chains.foldl Chain.growBox none

end Outline

structure Pen (α : Type) where
  curveSteps : Nat
  position : Point α
  chainStart : Point α
  pending : Option (Array (Segment α))
  finished : Array (Chain α)

namespace Pen

variable {α : Type} [Scalar α]

/-- How many segments a curve becomes, unless stated otherwise. -/
def defaultCurveSteps : Nat := 24

/-- A pen at the origin. A curve becomes at least one segment. -/
def new (curveSteps : Nat) : Pen α :=
  ⟨max curveSteps 1, Point.origin, Point.origin, none, #[]⟩

/-- Ends the open chain without closing it. -/
def lift {α : Type} (pen : Pen α) : Pen α :=
  match pen.pending with
  | none => pen
  | some segments =>
    { pen with
      pending := none
      finished := pen.finished.push ⟨pen.chainStart, segments, false⟩ }

/-- Lifts the pen, hands out what was drawn and goes back to the origin. -/
def build (pen : Pen α) : Outline α × Pen α :=
  let lifted := pen.lift
  (⟨lifted.finished⟩,
    { lifted with position := Point.origin, chainStart := Point.origin, finished := #[] })

def outline (pen : Pen α) : Outline α := pen.build.1

/-- Starts a new chain. -/
def moveTo {α : Type} (pen : Pen α) (p : Point α) : Pen α :=
  { pen.lift with position := p, chainStart := p, pending := some #[] }

/-- Adds segments to the open chain and goes to `target`. -/
def append {α : Type} (pen : Pen α) (segments : Array (Segment α)) (target : Point α) : Pen α :=
  { pen with
    position := target
    pending := some (pen.pending.getD #[] ++ segments) }

def lineTo {α : Type} (pen : Pen α) (p : Point α) : Pen α :=
  pen.append #[⟨pen.position, p⟩] p

/-- Moves the first start and the last end of chained segments to given points. -/
def pinEnds {α : Type} (segments : Array (Segment α)) (start stop : Point α) :
    Array (Segment α) :=
  let pinned := segments.modify 0 fun s => { s with start }
  pinned.modify (pinned.size - 1) fun s => { s with stop }

/-- Draws a flattened curve that starts at the position of the pen and ends at `target`, even if
its samples there are off by a rounding error. -/
def curveTo {κ : Type} [Curve κ α] (pen : Pen α) (curve : κ) (target : Point α) : Pen α :=
  let segments := (Curve.flatten curve pen.curveSteps).toList.toArray
  pen.append (pinEnds segments pen.position target) target

def quadTo (pen : Pen α) (control target : Point α) : Pen α :=
  pen.curveTo (Quadratic.mk pen.position control target) target

def cubicTo (pen : Pen α) (control₁ control₂ target : Point α) : Pen α :=
  pen.curveTo (Cubic.mk pen.position control₁ control₂ target) target

/-- Draws an arc, or a straight line where there is no such arc. -/
def arcTo (pen : Pen α) (radii : Point α) (rotation : α) (large sweep : Bool)
    (target : Point α) : Pen α :=
  match Arc.between pen.position target radii.x radii.y rotation large sweep with
  | none => pen.lineTo target
  | some arc => pen.curveTo arc target

/-- Closes the open chain with a segment to its start, even if that has no length. Without an open
chain nothing happens. -/
def close {α : Type} (pen : Pen α) : Pen α :=
  match pen.pending with
  | none => pen
  | some segments =>
    { pen with
      position := pen.chainStart
      pending := none
      finished := pen.finished.push
        ⟨pen.chainStart, segments.push ⟨pen.position, pen.chainStart⟩, true⟩ }

/-- Draws a closed ellipse of at least three segments, and stays at its first point. -/
def ellipse (pen : Pen α) (center : Point α) (rx ry : α) (steps : Nat) : Pen α :=
  let arc := Arc.ellipse center rx ry
  let steps := max steps 3
  let vertices := (List.range' 1 (steps - 1)).map fun step =>
    arc.pointAt (Scalar.ofNat step / Scalar.ofNat steps)
  (vertices.foldl lineTo (pen.moveTo (Curve.start arc))).close

end Pen
end VectorPaint
