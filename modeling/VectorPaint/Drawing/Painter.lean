import VectorPaint.Drawing.Element
import VectorPaint.Json.Parse
import VectorPaint.Raster.Fill
import VectorPaint.Raster.Stroke

/-!
Shapes are outlines with a style, painted with the stroke on top of the fill. A painter draws
elements one after the other, each on top of those before. Elements that cannot be drawn leave the
canvas as it is and are told in the report.
-/
namespace VectorPaint

structure Shape where
  outline : Outline Float
  style : Style

namespace Shape

/-- The shape of an element; there is none for tags that are not drawn. The geometry is checked
before the style. -/
def read (options : Options) (tag : String) (attributes : Attributes) :
    Except ElementError (Option Shape) := do
  match ← Element.read tag attributes with
  | none => return none
  | some element =>
    let outline ← element.outline options
    let style ← Style.read attributes
    return some ⟨outline, style⟩

/-- Paints a shape. `rule` is the fill rule of a shape that has none of its own. -/
def paint (shape : Shape) (rule : FillRule) (canvas : Canvas) : Canvas :=
  let filled :=
    match shape.style.fill with
    | none => canvas
    | some color => canvas.fill shape.outline (shape.style.fillRule.getD rule) color
  match shape.style.stroke with
  | none => filled
  | some color => filled.stroke shape.outline shape.style.strokeWidth color

end Shape

/-- An element that could not be drawn; `index` counts the elements before it. -/
structure Dropped where
  index : Nat
  element : String
  error : ElementError
  deriving Repr, DecidableEq

structure Report where
  drawn : Nat := 0
  ignored : Nat := 0
  dropped : Array Dropped := #[]

def Dropped.message (dropped : Dropped) : String :=
  "#" ++ toString dropped.index ++ " <" ++ dropped.element ++ ">: " ++ dropped.error.message

def Dropped.toValue (dropped : Dropped) : Json.Value :=
  .object [("index", .ofNat dropped.index), ("element", .string dropped.element),
    ("error", .string dropped.error.message)]

def Report.toValue (report : Report) : Json.Value :=
  .object [("drawn", .ofNat report.drawn), ("ignored", .ofNat report.ignored),
    ("dropped", .array (report.dropped.toList.map Dropped.toValue))]

/-- A painter with its canvas and its report. `index` counts the elements so far. -/
structure Painter where
  options : Options
  canvas : Canvas
  report : Report
  index : Nat

namespace Painter

def new (width height : Nat) (options : Options) : Painter :=
  ⟨options, Canvas.blank width height options.background, {}, 0⟩

/-- Draws an element, and tells whether it was drawn. -/
def draw (painter : Painter) (tag : String) (attributes : Attributes) : Bool × Painter :=
  match painter with
  | ⟨options, canvas, report, index⟩ =>
    match Shape.read options tag attributes with
    | .ok (some shape) =>
      (true, ⟨options, shape.paint options.fillRule canvas,
        { report with drawn := report.drawn + 1 }, index + 1⟩)
    | .ok none =>
      (false, ⟨options, canvas, { report with ignored := report.ignored + 1 }, index + 1⟩)
    | .error error =>
      (false, ⟨options, canvas,
        { report with dropped := report.dropped.push ⟨index, tag, error⟩ }, index + 1⟩)

end Painter
end VectorPaint
