import VectorPaint.Proofs.Color.Alpha
import VectorPaint.Proofs.Drawing.Run

/-!
Drawing only ever hides what is below. Each layer leaves every pixel at least as opaque as it was,
and so does each element and each run of elements. A drawing on an opaque background is opaque
throughout.
-/
namespace VectorPaint

namespace Canvas

/-- All pixels are still there, none of them less opaque. -/
def Thickens (canvas later : Canvas) : Prop :=
  ∀ x y pixel, canvas.pixel? x y = some pixel →
    ∃ next, later.pixel? x y = some next ∧ pixel.alpha ≤ next.alpha

namespace Thickens

variable {first second third : Canvas}

theorem refl (canvas : Canvas) : Thickens canvas canvas :=
  fun _ _ pixel found => ⟨pixel, found, UInt8.le_refl _⟩

theorem trans (before : Thickens first second) (after : Thickens second third) :
    Thickens first third := by
  intro x y pixel found
  obtain ⟨next, found, le⟩ := before x y pixel found
  obtain ⟨last, found, le'⟩ := after x y next found
  exact ⟨last, found, UInt8.le_trans le le'⟩

end Thickens

theorem thickens_paintLayer (canvas : Canvas) (layer : Layer) :
    Thickens canvas (canvas.paintLayer layer) := by
  intro x y pixel found
  refine ⟨layer.over canvas.width canvas.height x y pixel, ?_, ?_⟩
  · rw [pixel?_paintLayer, found, Option.map_some]
  · unfold Layer.over
    split
    · exact Rgba.alpha_le_paintedWith pixel layer.color
    · exact UInt8.le_refl _

theorem thickens_foldl_paintLayer (canvas : Canvas) (layers : List Layer) :
    Thickens canvas (layers.foldl paintLayer canvas) := by
  induction layers generalizing canvas with
  | nil => exact Thickens.refl canvas
  | cons layer rest ih => exact (canvas.thickens_paintLayer layer).trans (ih _)

end Canvas

theorem Rgba.isOpaque_of_le {pixel next : Rgba} (solid : pixel.isOpaque = true)
    (le : pixel.alpha ≤ next.alpha) : next.isOpaque = true := by
  rw [isOpaque, beq_iff_eq] at solid ⊢
  rw [solid, UInt8.le_iff_toNat_le] at le
  have bound := next.alpha.toNat_lt
  exact UInt8.toNat_inj.mp (le_antisymm (Nat.le_of_lt_succ bound) le)

namespace Painter

theorem thickens_drawEach (painter : Painter) (elements : List (String × Attributes)) :
    painter.canvas.Thickens (painter.drawEach elements).canvas := by
  rw [canvas_drawEach]
  exact painter.canvas.thickens_foldl_paintLayer _

/-- Later in a run a pixel is never less opaque than before, whatever the canvas was at first. On an
opaque background all pixels are opaque at any time. -/
theorem alpha_mono_drawEach (elements : List (String × Attributes)) (x y : ℕ) :
    (∀ (painter : Painter) (i j : ℕ), i ≤ j → ∀ pixel,
      (painter.drawEach (elements.take i)).canvas.pixel? x y = some pixel →
        ∃ later, (painter.drawEach (elements.take j)).canvas.pixel? x y = some later ∧
          pixel.alpha ≤ later.alpha) ∧
      ∀ (width height : ℕ) (options : Options), options.background.isOpaque = true →
        y < height → x < width →
          ∃ pixel, ((new width height options).drawEach elements).canvas.pixel? x y = some pixel ∧
            pixel.isOpaque = true := by
  constructor
  · intro painter i j le pixel found
    have longer : elements.take j = elements.take i ++ (elements.take j).drop i := by
      conv_lhs => rw [← List.take_append_drop i (elements.take j), List.take_take, min_eq_left le]
    rw [longer, drawEach_append]
    exact thickens_drawEach _ _ x y pixel found
  · intro width height options solid row column
    have first : (new width height options).canvas.pixel? x y = some options.background :=
      (Canvas.pixel?_blank ..).trans (if_pos ⟨row, column⟩)
    obtain ⟨pixel, found, le⟩ := thickens_drawEach (new width height options) elements x y _ first
    exact ⟨pixel, found, Rgba.isOpaque_of_le solid le⟩

/-- Two faint lines that cross in the middle of a square of three pixels. -/
def faintLines : List (String × Attributes) :=
  [("line", .ofPairs [("x1", "0"), ("y1", "1"), ("x2", "2"), ("y2", "1"), ("fill", "none"),
      ("stroke", "#0000ff40")]),
    ("line", .ofPairs [("x1", "1"), ("y1", "0"), ("x2", "1"), ("y2", "2"), ("fill", "none"),
      ("stroke", "#ff000040")])]

def faintGround : Options := { background := ⟨0, 0, 0, 3⟩ }

/-- Where the lines cross, a faint ground has grown darker; a white one has stayed opaque. -/
theorem alpha_faintLines :
    0 ≤ 2 ∧
      ((new 3 3 faintGround).drawEach (faintLines.take 0)).canvas.pixel? 1 1 = some ⟨0, 0, 0, 3⟩ ∧
      (∃ later,
        ((new 3 3 faintGround).drawEach (faintLines.take 2)).canvas.pixel? 1 1 = some later ∧
          3 ≤ later.alpha ∧ later.alpha = 113) ∧
      Rgba.white.isOpaque = true ∧
      ∃ pixel, ((new 3 3 { background := .white }).drawEach faintLines).canvas.pixel? 1 1 =
        some pixel ∧ pixel.isOpaque = true := by
  obtain ⟨grown, solid⟩ := alpha_mono_drawEach faintLines 1 1
  have first : ((new 3 3 faintGround).drawEach (faintLines.take 0)).canvas.pixel? 1 1 =
      some ⟨0, 0, 0, 3⟩ := by decide +kernel
  have seen : (((new 3 3 faintGround).drawEach (faintLines.take 2)).canvas.pixel? 1 1).map
      Rgba.alpha = some 113 := by decide +kernel
  have white : Rgba.white.isOpaque = true := rfl
  obtain ⟨later, found, le⟩ := grown (new 3 3 faintGround) 0 2 (Nat.zero_le 2) _ first
  rw [found] at seen
  exact ⟨Nat.zero_le 2, first, ⟨later, found, le, Option.some_inj.mp seen⟩, white,
    solid 3 3 { background := .white } white (by decide) (by decide)⟩

end Painter
end VectorPaint
