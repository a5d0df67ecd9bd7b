import VectorPaint.Drawing.Painter
import VectorPaint.Proofs.Raster.Apart
import VectorPaint.Proofs.Raster.Paint

/-!
A drawing as a pile of layers. Each element lays at most two layers on the canvas, its inside and on
top of it its stroke, and a layer has an area and a color. The area tells which pixels of a canvas
it covers, by the size of the canvas alone, and each of them is painted once. So a pixel ends as the
background painted with the layers that cover it, from the lowest one on.
-/
namespace VectorPaint

/-- What is painted of an outline. -/
inductive Area.Part where
  | inside (rule : FillRule)
  | stroke (width : Float)

/-- The part of the plane that a layer is painted on. -/
structure Area where
  outline : Outline Float
  part : Area.Part

namespace Area

/-- The runs of pixels of an area, on a canvas of a given size. -/
def runs (area : Area) (width height : ℕ) : List Run :=
  match area.part with
  | .inside rule => Fill.runs area.outline rule width height
  | .stroke strokeWidth => Stroke.runs area.outline strokeWidth width height

/-- A pixel of a canvas of a given size belongs to the area. Neither a color nor what has been
painted before has a say in it. -/
def covers (area : Area) (width height x y : ℕ) : Bool :=
  (area.runs width height).any (·.contains y x)

theorem countP_runs (area : Area) (width height x y : ℕ) :
    (area.runs width height).countP (·.contains y x) =
      if area.covers width height x y then 1 else 0 := by
  have once : (area.runs width height).countP (·.contains y x) ≤ 1 := by
    unfold runs
    split
    · exact Fill.countP_runs_le_one ..
    · exact Stroke.countP_runs_le_one ..
  have some : area.covers width height x y ↔
      0 < (area.runs width height).countP (·.contains y x) := by
    rw [covers, List.any_eq_true, List.countP_pos_iff]
  split
  · have := some.mp ‹_›
    omega
  · have := mt some.mpr ‹_›
    omega

end Area

/-- A color on an area. -/
structure Layer where
  area : Area
  color : Rgba

/-- A pixel of a canvas of a given size under a further layer. -/
def Layer.over (layer : Layer) (width height x y : ℕ) (pixel : Rgba) : Rgba :=
  if layer.area.covers width height x y then pixel.paintedWith layer.color else pixel

/-- A pixel of a canvas of a given size under layers, the first one lowest. -/
def Rgba.under (pixel : Rgba) (layers : List Layer) (width height x y : ℕ) : Rgba :=
  layers.foldl (fun pixel layer => layer.over width height x y pixel) pixel

/-- Of opaque layers the last one that covers a pixel is seen. -/
theorem Rgba.under_of_solid {layers : List Layer} (pixel : Rgba)
    (solid : ∀ layer ∈ layers, layer.color.isOpaque = true) (width height x y : ℕ) :
    pixel.under layers width height x y =
      ((layers.filter (·.area.covers width height x y)).map Layer.color).getLastD pixel := by
  induction layers generalizing pixel with
  | nil => rfl
  | cons layer rest ih =>
    obtain ⟨first, others⟩ := List.forall_mem_cons.mp solid
    have step : pixel.under (layer :: rest) width height x y =
        (layer.over width height x y pixel).under rest width height x y := rfl
    rw [step, ih _ others, List.filter_cons, Layer.over]
    split
    · rw [List.map_cons, List.getLastD_cons, paintedWith_of_solid first]
    · rfl

namespace Canvas

variable {canvas : Canvas} {layer : Layer} {layers : List Layer}

/-- Paints a layer. -/
def paintLayer (canvas : Canvas) (layer : Layer) : Canvas :=
  match layer.area.part with
  | .inside rule => canvas.fill layer.area.outline rule layer.color
  | .stroke strokeWidth => canvas.stroke layer.area.outline strokeWidth layer.color

theorem paintLayer_eq (canvas : Canvas) (layer : Layer) :
    canvas.paintLayer layer =
      if layer.color.isTransparent then canvas
      else canvas.paintRuns (layer.area.runs canvas.width canvas.height) layer.color := by
  unfold paintLayer Area.runs
  cases layer.area.part <;> rfl

@[simp] theorem width_paintLayer : (canvas.paintLayer layer).width = canvas.width := by
  rw [paintLayer_eq]
  split <;> simp

@[simp] theorem height_paintLayer : (canvas.paintLayer layer).height = canvas.height := by
  rw [paintLayer_eq]
  split <;> simp

theorem pixel?_paintLayer (canvas : Canvas) (layer : Layer) (x y : ℕ) :
    (canvas.paintLayer layer).pixel? x y =
      (canvas.pixel? x y).map (layer.over canvas.width canvas.height x y) := by
  rw [paintLayer_eq]
  split
  · rename_i transparent
    have stays : layer.over canvas.width canvas.height x y = id := by
      funext pixel
      simp [Layer.over, Rgba.paintedWith, transparent]
    rw [stays, Option.map_id_apply]
  · rw [pixel?_paintRuns, Area.countP_runs]
    congr 1
    funext pixel
    unfold Layer.over
    split <;> rfl

theorem pixel?_foldl_paintLayer (canvas : Canvas) (layers : List Layer) (x y : ℕ) :
    (layers.foldl paintLayer canvas).pixel? x y =
      (canvas.pixel? x y).map (·.under layers canvas.width canvas.height x y) := by
  induction layers generalizing canvas with
  | nil => exact Option.map_id_apply.symm
  | cons layer rest ih =>
    rw [List.foldl_cons, ih, pixel?_paintLayer, Option.map_map, width_paintLayer,
      height_paintLayer]
    rfl

theorem pixel?_blank (width height : ℕ) (background : Rgba) (x y : ℕ) :
    (blank width height background).pixel? x y =
      if y < height ∧ x < width then some background else none :=
  Grid.get?_ofFn ..

end Canvas

/-- The layers of a shape, the lower one first. -/
def Shape.layers (shape : Shape) (rule : FillRule) : List Layer :=
  let inside := shape.style.fill.map fun color =>
    ⟨⟨shape.outline, .inside (shape.style.fillRule.getD rule)⟩, color⟩
  let stroke := shape.style.stroke.map fun color =>
    ⟨⟨shape.outline, .stroke shape.style.strokeWidth⟩, color⟩
  inside.toList ++ stroke.toList

theorem Shape.paint_eq (shape : Shape) (rule : FillRule) (canvas : Canvas) :
    shape.paint rule canvas = (shape.layers rule).foldl Canvas.paintLayer canvas := by
  obtain ⟨outline, fill, stroke, strokeWidth, fillRule⟩ := shape
  cases fill <;> cases stroke <;> rfl

/-- The layers of an element; there are none for those that are not drawn. -/
def Options.layers (options : Options) (element : String × Attributes) : List Layer :=
  match Shape.read options element.1 element.2 with
  | .ok (some shape) => shape.layers options.fillRule
  | _ => []

/-- The layers of a drawing, the lowest one first. -/
def Options.pile (options : Options) (elements : List (String × Attributes)) : List Layer :=
  elements.flatMap options.layers

namespace Painter

/-- Draws elements one after the other. -/
def drawEach (painter : Painter) (elements : List (String × Attributes)) : Painter :=
  elements.foldl (fun painter element => (painter.draw element.1 element.2).2) painter

theorem drawEach_cons (painter : Painter) (element : String × Attributes)
    (rest : List (String × Attributes)) :
    painter.drawEach (element :: rest) = (painter.draw element.1 element.2).2.drawEach rest := rfl

theorem draw_layers (painter : Painter) (element : String × Attributes) :
    (painter.draw element.1 element.2).2.options = painter.options ∧
      (painter.draw element.1 element.2).2.canvas =
        (painter.options.layers element).foldl Canvas.paintLayer painter.canvas := by
  obtain ⟨options, canvas, report, index⟩ := painter
  unfold draw Options.layers
  simp only
  cases Shape.read options element.1 element.2 with
  | error cause => exact ⟨rfl, rfl⟩
  | ok shape =>
    cases shape with
    | none => exact ⟨rfl, rfl⟩
    | some shape => exact ⟨rfl, shape.paint_eq ..⟩

theorem canvas_drawEach (painter : Painter) (elements : List (String × Attributes)) :
    (painter.drawEach elements).canvas =
      (painter.options.pile elements).foldl Canvas.paintLayer painter.canvas := by
  induction elements generalizing painter with
  | nil => rfl
  | cons element rest ih =>
    obtain ⟨options, canvas⟩ := painter.draw_layers element
    rw [drawEach_cons, ih, options, canvas, ← List.foldl_append]
    rfl

/-- Each pixel ends as the background under the layers that cover it, each of which is painted on it
once. If all of them are opaque, the last one is what is seen. -/
theorem pixel?_drawEach (options : Options) (width height : ℕ)
    (elements : List (String × Attributes)) (x y : ℕ) :
    ((Painter.new width height options).drawEach elements).canvas.pixel? x y =
        (if y < height ∧ x < width then
          some (options.background.under (options.pile elements) width height x y)
        else none) ∧
      (∀ layer ∈ options.pile elements,
        (layer.area.runs width height).countP (·.contains y x) =
          if layer.area.covers width height x y then 1 else 0) ∧
      ((∀ layer ∈ options.pile elements, layer.color.isOpaque = true) →
        ((Painter.new width height options).drawEach elements).canvas.pixel? x y =
          if y < height ∧ x < width then
            some ((((options.pile elements).filter (·.area.covers width height x y)).map
              Layer.color).getLastD options.background)
          else none) := by
  have layered : ((Painter.new width height options).drawEach elements).canvas.pixel? x y =
      if y < height ∧ x < width then
        some (options.background.under (options.pile elements) width height x y)
      else none := by
    rw [canvas_drawEach, Canvas.pixel?_foldl_paintLayer]
    change ((Canvas.blank width height options.background).pixel? x y).map
      (·.under (options.pile elements) width height x y) = _
    rw [Canvas.pixel?_blank]
    split <;> rfl
  refine ⟨layered, fun layer _ => layer.area.countP_runs width height x y, fun solid => ?_⟩
  rw [layered, Rgba.under_of_solid _ solid]

end Painter

/-- Two lines that cross in the middle of a square of three pixels. -/
def twoLines : List (String × Attributes) :=
  [("line", .ofPairs [("x1", "0"), ("y1", "1"), ("x2", "2"), ("y2", "1"), ("fill", "none"),
      ("stroke", "#0000ff")]),
    ("line", .ofPairs [("x1", "1"), ("y1", "0"), ("x2", "1"), ("y2", "2"), ("fill", "none"),
      ("stroke", "#ff0000")])]

/-- Where the lines cross, the later one is seen, and beside it the earlier one. -/
theorem Painter.pixel?_twoLines :
    (∀ layer ∈ ({} : Options).pile twoLines, layer.color.isOpaque = true) ∧
      ((Painter.new 3 3 {}).drawEach twoLines).canvas.pixel? 1 1 = some ⟨255, 0, 0, 255⟩ ∧
      ((Painter.new 3 3 {}).drawEach twoLines).canvas.pixel? 0 1 = some ⟨0, 0, 255, 255⟩ := by
  have solid : ∀ layer ∈ ({} : Options).pile twoLines, layer.color.isOpaque = true := by
    decide +kernel
  refine ⟨solid, ((pixel?_drawEach {} 3 3 twoLines 1 1).2.2 solid).trans ?_,
    ((pixel?_drawEach {} 3 3 twoLines 0 1).2.2 solid).trans ?_⟩
  · decide +kernel
  · decide +kernel
end VectorPaint
