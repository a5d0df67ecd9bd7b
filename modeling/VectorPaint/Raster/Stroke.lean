import VectorPaint.Outline.Pen
import VectorPaint.Raster.Canvas

/-!
The pixels of a stroke: those whose center is closer than half the stroke width to a segment, and
those on the line of cells of a segment, so that a thin stroke has no gaps. They are marked in a
mask over the part of the canvas that the stroke can reach, and each of them is painted once. The
line of cells between two given ones is found by steps of one column, one row or both, by the sign
of a running error, so that it stays within half a cell of the straight one.
-/
namespace VectorPaint

/-- A cell of the unbounded grid. -/
structure Cell where
  x : Int
  y : Int
  deriving DecidableEq, Repr

namespace Cell

/-- A step of one towards the other side, or away from it if there is no distance. -/
def direction (start stop : Int) : Int := if start < stop then 1 else -1

/-- A line under way from some cell to `stop`: `dx` columns to the side and `dy` rows, the latter
counted negative, and the error of the current cell. -/
structure Trace where
  stop : Cell
  dx : Int
  dy : Int
  stepX : Int
  stepY : Int
  cell : Cell
  error : Int

def Trace.begin (start stop : Cell) : Trace :=
  let dx : Int := (stop.x - start.x).natAbs
  let dy : Int := -(stop.y - start.y).natAbs
  ⟨stop, dx, dy, direction start.x stop.x, direction start.y stop.y, start, dx + dy⟩

/-- One step, along either axis or both. -/
def Trace.next (t : Trace) : Trace :=
  let doubled := 2 * t.error
  let across := decide (t.dy ≤ doubled)
  let down := decide (doubled ≤ t.dx)
  { t with
    cell := ⟨if across then t.cell.x + t.stepX else t.cell.x,
      if down then t.cell.y + t.stepY else t.cell.y⟩
    error := t.error + (if across then t.dy else 0) + (if down then t.dx else 0) }

/-- The cells from the current one up to the end of the line, at most `limit` of them. -/
def Trace.cells : Nat → Trace → List Cell
  | 0, _ => []
  | limit + 1, t => t.cell :: if t.cell = t.stop then [] else cells limit t.next

/-- The line of cells between two cells. Every step shortens the way along one axis at least, which
bounds their number. -/
def line (start stop : Cell) : List Cell :=
  Trace.cells ((stop.x - start.x).natAbs + (stop.y - start.y).natAbs + 1) (Trace.begin start stop)

end Cell

/-- Marks for a part of the canvas, whose first cell is at `col` and `row` of the canvas. -/
structure Mask where
  col : Nat
  row : Nat
  marks : Grid Bool

namespace Mask

variable {α : Type} [Scalar α]

/-- An empty mask over all pixels that a box on the canvas touches. -/
def ofBox (region : Box α) : Mask :=
  let col := (Scalar.floor region.low.x).toNat
  let row := (Scalar.floor region.low.y).toNat
  let width := (Scalar.ceil region.high.x).toNat - col
  let height := (Scalar.ceil region.high.y).toNat - row
  ⟨col, row, Grid.ofFn height width fun _ _ => false⟩

/-- The box that the mask covers. -/
def box (mask : Mask) : Box α :=
  Box.ofCells mask.col mask.row mask.marks.width mask.marks.height

/-- Marks a pixel; there are no marks outside the mask. -/
def mark (mask : Mask) (cell : Cell) : Mask :=
  if cell.x < mask.col ∨ cell.y < mask.row then mask
  else
    { mask with
      marks := mask.marks.set (cell.y.toNat - mask.row) (cell.x.toNat - mask.col) true }

/-- Marks the pixels whose center is closer to a segment than `distance`. -/
@[specialize] def markNear (mask : Mask) (s : Segment α) (distance : α) : Mask :=
  match (s.box.inflate distance).meet mask.box with
  | none => mask
  | some area =>
    let left := (Scalar.floor area.low.x).toNat
    let right := (Scalar.ceil area.high.x).toNat
    let top := (Scalar.floor area.low.y).toNat
    let bottom := (Scalar.ceil area.high.y).toNat
    (List.range' top (bottom - top)).foldl (fun mask y =>
      (List.range' left (right - left)).foldl (fun mask x =>
        let center : Point α := ⟨Scalar.ofNat x + Scalar.half, Scalar.ofNat y + Scalar.half⟩
        if s.distance center < distance then mask.mark ⟨x, y⟩ else mask) mask) mask

/-- Marks the line of cells of a segment. -/
def markCore (mask : Mask) (s : Segment α) : Mask :=
  (Cell.line ⟨Scalar.floor s.start.x, Scalar.floor s.start.y⟩
    ⟨Scalar.floor s.stop.x, Scalar.floor s.stop.y⟩).foldl mark mask

/-- The marked pixels, each as a run of its own. -/
def runs (mask : Mask) : List Run :=
  (List.range mask.marks.height).flatMap fun row =>
    (List.range mask.marks.width).filterMap fun col =>
      if mask.marks.get? row col = some true then
        some ⟨mask.row + row, mask.col + col, mask.col + col + 1⟩
      else none

end Mask

namespace Stroke

variable {α : Type} [Scalar α]

/-- Marks the pixels of one segment. The line of cells is only followed inside of `core`; segments
with indeterminate ends are left out. -/
@[specialize] def markSegment (core : Box α) (distance : α) (mask : Mask) (s : Segment α) : Mask :=
  if s.isFinite then
    let mask :=
      match s.clip core with
      | none => mask
      | some inner => mask.markCore inner
    mask.markNear s distance
  else mask

/-- The mask of a stroke, if it can reach the canvas. -/
@[specialize] def mask? (o : Outline α) (strokeWidth : α) (width height : Nat) : Option Mask := do
  let distance := strokeWidth / Scalar.ofNat 2
  let bounds : Box α := Box.ofCells 0 0 width height
  let box ← o.box
  let region ← (box.inflate (distance + Scalar.ofNat 1)).meet bounds
  let core := bounds.inflate (Scalar.ofNat 1)
  return o.segments.foldl (markSegment core distance) (Mask.ofBox region)

/-- The runs of pixels of a stroke, on a canvas of a given size. A stroke has a finite positive
width. -/
@[specialize] def runs (o : Outline α) (strokeWidth : α) (width height : Nat) : List Run :=
  if Scalar.isFinite strokeWidth ∧ ¬ strokeWidth ≤ Scalar.ofNat 0 ∧ width ≠ 0 ∧ height ≠ 0 then
    match mask? o strokeWidth width height with
    | none => []
    | some mask => mask.runs
  else []

end Stroke

/-- Paints the stroke of an outline. -/
@[specialize] def Canvas.stroke {α : Type} [Scalar α] (canvas : Canvas) (o : Outline α)
    (strokeWidth : α) (color : Rgba) : Canvas :=
  if color.isTransparent then canvas
  else canvas.paintRuns (Stroke.runs o strokeWidth canvas.width canvas.height) color

end VectorPaint
