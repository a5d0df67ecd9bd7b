import VectorPaint.Outline.Pen
import VectorPaint.Raster.Canvas

/-!
The runs of pixels inside an outline. Each row is sampled at the height of its pixel centers: the
border crosses it at some positions, the fill rule pairs these into spans, and a pixel belongs to
the run of a span if its center lies in it. A span holds its left end and not its right one.
-/
namespace VectorPaint

/-- A part of the border from `top` down to `bottom`. `winding` is 1 where the border goes down and
-1 where it goes up; `slope` is the change of `x` for each unit of `y`. -/
structure Edge (α : Type) where
  x : α
  top : α
  bottom : α
  slope : α
  winding : Int

/-- A position at which the border crosses a row, with the winding of its edge. -/
structure Crossing (α : Type) where
  x : α
  winding : Int

variable {α : Type} [Scalar α]

namespace Edge

/-- The edge of a segment. Level segments cross no row, and indeterminate ones are left out. -/
def ofSegment? (s : Segment α) : Option (Edge α) :=
  if !s.isFinite || s.start.y == s.stop.y then none
  else
    let (winding, upper, lower) :=
      if s.start.y < s.stop.y then (1, s.start, s.stop) else (-1, s.stop, s.start)
    some ⟨upper.x, upper.y, lower.y, (lower.x - upper.x) / (lower.y - upper.y), winding⟩

/-- Where the edge crosses the height `y`. The edge holds its top and not its bottom, so that edges
that meet count once. -/
@[specialize] def crossing? (e : Edge α) (y : α) : Option (Crossing α) :=
  if e.top ≤ y ∧ y < e.bottom then some ⟨e.x + (y - e.top) * e.slope, e.winding⟩ else none

end Edge

namespace Fill

/-- The edges around an outline. -/
def edges (o : Outline α) : List (Edge α) := o.border.filterMap Edge.ofSegment?

/-- The crossings at the height `y`, from left to right. -/
@[specialize] def crossings (edges : List (Edge α)) (y : α) : List (Crossing α) :=
  (edges.filterMap (·.crossing? y)).mergeSort fun a b => Scalar.precedes a.x b.x

/-- Spans from every odd crossing to the next one. -/
def evenOddSpans {α : Type} : List (Crossing α) → List (α × α)
  | enter :: leave :: rest => (enter.x, leave.x) :: evenOddSpans rest
  | _ => []

/-- Spans over which the sum of windings is not zero, after crossings with the sum `winding` of
which the last span was begun at `start`. -/
def windingSpans {α : Type} (winding : Int) (start : α) : List (Crossing α) → List (α × α)
  | [] => []
  | crossing :: rest =>
    let next := winding + crossing.winding
    if winding = 0 ∧ next ≠ 0 then windingSpans next crossing.x rest
    else if winding ≠ 0 ∧ next = 0 then (start, crossing.x) :: windingSpans next start rest
    else windingSpans next start rest

def spans (rule : FillRule) (crossings : List (Crossing α)) : List (α × α) :=
  match rule with
  | .evenOdd => evenOddSpans crossings
  | .nonZero => windingSpans 0 (Scalar.ofNat 0) crossings

/-- The runs of one row. -/
@[specialize] def rowRuns (edges : List (Edge α)) (rule : FillRule) (width row : Nat) : List Run :=
  (spans rule (crossings edges (Scalar.ofNat row + Scalar.half))).map fun span =>
    ⟨row, Scalar.pixelFrom span.1 width, Scalar.pixelFrom span.2 width⟩

/-- The first row whose center is not above all edges, and the first one whose center is not above
the end of the last edge. -/
def rowRange (edges : List (Edge α)) (height : Nat) : Nat × Nat :=
  match edges with
  | [] => (0, 0)
  | e :: rest =>
    (Scalar.pixelFrom (rest.foldl (fun y e => Scalar.least y e.top) e.top) height,
      Scalar.pixelFrom (rest.foldl (fun y e => Scalar.greatest y e.bottom) e.bottom) height)

/-- The runs of pixels inside an outline, on a canvas of a given size. -/
@[specialize] def runs (o : Outline α) (rule : FillRule) (width height : Nat) : List Run :=
  let edges := edges o
  let (first, stop) := rowRange edges height
  (List.range' first (stop - first)).flatMap (rowRuns edges rule width)

end Fill

/-- Paints the inside of an outline. -/
@[specialize] def Canvas.fill (canvas : Canvas) (o : Outline α) (rule : FillRule) (color : Rgba) :
    Canvas :=
  if color.isTransparent then canvas
  else canvas.paintRuns (Fill.runs o rule canvas.width canvas.height) color

end VectorPaint
