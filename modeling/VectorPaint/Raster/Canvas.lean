import VectorPaint.Color.Contrast

/-!
Grids of cells, row by row, and canvases of pixels. The number of cells is that of rows times
columns, so a position inside the grid always has a cell, and a column beyond the last one never
reaches into the next row. A canvas is painted one pixel or one run of pixels at a time. The unit
square from `(x, y)` on is that of pixel `(x, y)`; `y` grows downwards.
-/
namespace VectorPaint

structure Grid (β : Type) where
  height : Nat
  width : Nat
  cells : Array β
  size_eq : cells.size = height * width

namespace Grid

variable {β : Type}

/-- Adds the cells of a row to those before it. -/
def pushRow (width : Nat) (cells : Array β) (cell : Nat → β) : Array β :=
  (List.range width).foldl (fun cells col => cells.push (cell col)) cells

/-- The cells of a grid, pushed one after the other. -/
def fill (height width : Nat) (cell : Nat → Nat → β) : Array β :=
  (List.range height).foldl (fun cells row => pushRow width cells (cell row)) #[]

theorem toList_pushRow (width : Nat) (cells : Array β) (cell : Nat → β) :
    (pushRow width cells cell).toList = cells.toList ++ (List.range width).map cell := by
  rw [pushRow, List.foldl_push_eq_append, Array.toList_append]

/-- The cells stand row by row. -/
theorem toList_fill (height width : Nat) (cell : Nat → Nat → β) :
    (fill height width cell).toList =
      (List.range height).flatMap fun row => (List.range width).map (cell row) := by
  have onward (rows : List Nat) (cells : Array β) :
      (rows.foldl (fun cells row => pushRow width cells (cell row)) cells).toList =
        cells.toList ++ rows.flatMap fun row => (List.range width).map (cell row) := by
    induction rows generalizing cells with
    | nil => simp
    | cons row rest ih =>
      rw [List.foldl_cons, ih, toList_pushRow, List.append_assoc, List.flatMap_cons]
  exact onward (List.range height) #[]

theorem size_fill (height width : Nat) (cell : Nat → Nat → β) :
    (fill height width cell).size = height * width := by
  rw [← Array.length_toList, toList_fill, List.length_flatMap]
  simp only [List.length_map, List.length_range, List.map_const', List.sum_replicate_nat]

/-- The grid with given cells. -/
def ofFn (height width : Nat) (cell : Nat → Nat → β) : Grid β :=
  ⟨height, width, fill height width cell, size_fill height width cell⟩

/-- The position of a cell in row order. -/
def offset (g : Grid β) (row col : Nat) : Nat := row * g.width + col

def contains (g : Grid β) (row col : Nat) : Bool :=
  decide (row < g.height) && decide (col < g.width)

def get? (g : Grid β) (row col : Nat) : Option β :=
  if g.contains row col then g.cells[g.offset row col]? else none

/-- Changes one cell; a position outside the grid has none. -/
def modify (g : Grid β) (row col : Nat) (f : β → β) : Grid β :=
  if g.contains row col then
    { g with
      cells := g.cells.modify (g.offset row col) f
      size_eq := by rw [Array.size_modify, g.size_eq] }
  else g

def set (g : Grid β) (row col : Nat) (value : β) : Grid β := g.modify row col fun _ => value

/-- The cells of one row. -/
def row (g : Grid β) (row : Nat) : List β :=
  (List.range g.width).filterMap (g.get? row)

end Grid

abbrev Canvas := Grid Rgba

/-- What a pixel becomes when it is painted: a transparent paint changes nothing, an opaque one
replaces it, any other is blended over it. -/
def Rgba.paintedWith (pixel paint : Rgba) : Rgba :=
  if paint.isTransparent then pixel
  else if paint.isOpaque then paint
  else pixel.blend paint

/-- Neighbouring pixels of one row: the columns from `start` up to, but not including, `stop`. -/
structure Run where
  row : Nat
  start : Nat
  stop : Nat
  deriving DecidableEq, Repr

/-- The pixel in a row and column belongs to the run. -/
def Run.contains (run : Run) (row col : Nat) : Bool :=
  decide (run.row = row) && decide (run.start ≤ col) && decide (col < run.stop)

namespace Canvas

def blank (width height : Nat) (background : Rgba) : Canvas :=
  Grid.ofFn height width fun _ _ => background

def pixel? (canvas : Canvas) (x y : Nat) : Option Rgba := canvas.get? y x

/-- Paints one pixel; there are none outside the canvas. -/
def paint (canvas : Canvas) (x y : Nat) (color : Rgba) : Canvas :=
  canvas.modify y x (·.paintedWith color)

def paintRun (canvas : Canvas) (run : Run) (color : Rgba) : Canvas :=
  (List.range' run.start (run.stop - run.start)).foldl
    (fun canvas x => canvas.paint x run.row color) canvas

def paintRuns (canvas : Canvas) (runs : List Run) (color : Rgba) : Canvas :=
  runs.foldl (fun canvas run => canvas.paintRun run color) canvas

end Canvas
end VectorPaint
