import Mathlib
import VectorPaint.Proofs.Outline.Box
import VectorPaint.Proofs.Plane.Distance
import VectorPaint.Proofs.Raster.Mask
import VectorPaint.Proofs.Raster.Paint
import VectorPaint.Proofs.Raster.Straight

/-!
Stroking paints what is touched. A segment touches the pixels whose center is near it and those on
the line of cells of its part around the canvas. In exact arithmetic, stroking an outline paints
exactly the pixels that one of its segments touches, each of them once: what the mask and the areas
of the segments leave out is not touched. The distance from a segment is the least of those from its
points, so the pixels that are near depend on the points of the segment only, and a greater distance
marks no fewer of them.
-/
namespace VectorPaint

namespace Box

/-- The inside of the box meets the square of a pixel. -/
def Overlaps (b : Box ℝ) (x y : ℕ) : Prop :=
  (b.low.x < x + 1 ∧ x < b.high.x) ∧ b.low.y < y + 1 ∧ y < b.high.y

variable {a b : Box ℝ} {col row width height x y : ℕ}

theorem Within.overlaps (within : a.Within b) (overlaps : a.Overlaps x y) : b.Overlaps x y :=
  ⟨⟨within.left.trans_lt overlaps.1.1, overlaps.1.2.trans_le within.right⟩,
    within.upper.trans_lt overlaps.2.1, overlaps.2.2.trans_le within.lower⟩

/-- A pixel of a grid is met by a box exactly if it is met by the part of the box on the grid. -/
theorem overlaps_meet_ofCells (ordered : a.Ordered) (colInside : col ≤ x ∧ x < col + width)
    (rowInside : row ≤ y ∧ y < row + height) :
    (∃ c, a.meet (ofCells col row width height) = some c ∧ c.Overlaps x y) ↔ a.Overlaps x y := by
  have left : (col : ℝ) ≤ x := by exact_mod_cast colInside.1
  have right : (x : ℝ) + 1 ≤ col + width := by exact_mod_cast colInside.2
  have upper : (row : ℝ) ≤ y := by exact_mod_cast rowInside.1
  have lower : (y : ℝ) + 1 ≤ row + height := by exact_mod_cast rowInside.2
  rw [exact_meet ordered (ordered_ofCells ..)]
  simp only [exact_ofCells, Option.ite_none_right_eq_some, Option.some.injEq]
  constructor
  · rintro ⟨c, ⟨-, rfl⟩, overlaps⟩
    simp only [Overlaps, max_lt_iff, lt_min_iff] at overlaps ⊢
    exact ⟨⟨overlaps.1.1.1, overlaps.1.2.1⟩, overlaps.2.1.1, overlaps.2.2.1⟩
  · intro overlaps
    obtain ⟨⟨fromLeft, fromRight⟩, fromAbove, fromBelow⟩ := id overlaps
    refine ⟨_, ⟨⟨⟨?_, ?_⟩, ?_, ?_⟩, rfl⟩, ?_⟩
    · linarith
    · linarith
    · linarith
    · linarith
    · simp only [Overlaps, max_lt_iff, lt_min_iff]
      refine ⟨⟨⟨fromLeft, ?_⟩, fromRight, ?_⟩, ⟨fromAbove, ?_⟩, fromBelow, ?_⟩ <;> linarith

end Box

section Rounding

variable {side : ℝ} {n : ℕ}

theorem floor_toNat_le_iff : (Scalar.floor side).toNat ≤ n ↔ side < n + 1 := by
  change ⌊side⌋.toNat ≤ n ↔ _
  rw [Int.toNat_le, Int.floor_le_iff, Int.cast_natCast]

theorem lt_ceil_toNat_iff : n < (Scalar.ceil side).toNat ↔ n < side := by
  change n < ⌈side⌉.toNat ↔ _
  rw [Int.lt_toNat, Int.lt_ceil, Int.cast_natCast]

theorem Mask.reaches_ofBox {region : Box ℝ} {x y : ℕ} :
    (Mask.ofBox region).Reaches x y ↔ region.Overlaps x y := by
  simp only [Box.Overlaps, ← floor_toNat_le_iff, ← lt_ceil_toNat_iff]
  simp only [Mask.Reaches, Mask.ofBox, Grid.ofFn]
  omega

/-- The mask has just the cells that a box touches: no difference in its size is cut off at zero. -/
structure Mask.Fits (mask : Mask) (region : Box ℝ) : Prop where
  left : (mask.col : ℤ) = ⌊region.low.x⌋
  right : (mask.col + mask.marks.width : ℤ) = ⌈region.high.x⌉
  upper : (mask.row : ℤ) = ⌊region.low.y⌋
  lower : (mask.row + mask.marks.height : ℤ) = ⌈region.high.y⌉

private theorem floor_add_sub {low high : ℝ} (nonneg : 0 ≤ low) (ordered : low ≤ high) :
    (⌊low⌋.toNat : ℤ) = ⌊low⌋ ∧ (⌊low⌋.toNat + (⌈high⌉.toNat - ⌊low⌋.toNat : ℕ) : ℤ) = ⌈high⌉ := by
  have floor_nonneg : 0 ≤ ⌊low⌋ := Int.floor_nonneg.mpr nonneg
  have below : ⌊low⌋ ≤ ⌈high⌉ := (Int.floor_le_ceil low).trans (Int.ceil_mono ordered)
  omega

theorem Mask.fits_ofBox {region : Box ℝ} (ordered : region.Ordered) (left : 0 ≤ region.low.x)
    (upper : 0 ≤ region.low.y) : (Mask.ofBox region).Fits region :=
  ⟨(floor_add_sub left ordered.x).1, (floor_add_sub left ordered.x).2,
    (floor_add_sub upper ordered.y).1, (floor_add_sub upper ordered.y).2⟩

end Rounding

namespace Segment

variable {s : Segment ℝ} {distance : ℝ} {core : Box ℝ} {x y : ℕ}

/-- The pixel has its center closer to the segment than `distance`, or lies on the line of cells of
the part of the segment in `core`. -/
def Touches (s : Segment ℝ) (distance : ℝ) (core : Box ℝ) (x y : ℕ) : Prop :=
  s.distance ⟨x + 1 / 2, y + 1 / 2⟩ < distance ∨
    ∃ inner, s.clip core = some inner ∧ ⟨x, y⟩ ∈ inner.cells

theorem overlaps_of_near (near : s.distance ⟨x + 1 / 2, y + 1 / 2⟩ < distance) :
    (s.box.inflate distance).Overlaps x y := by
  obtain ⟨⟨left, right⟩, upper, lower⟩ := near_box_of_distance_lt near
  simp only [Box.Overlaps, Box.exact_inflate] at left right upper lower ⊢
  refine ⟨⟨?_, ?_⟩, ?_, ?_⟩ <;> linarith

/-- A line of cells does not leave the cells that the box of its segment touches. -/
theorem box_of_mem_cells {cell : Cell} (member : cell ∈ s.cells) :
    (s.box.low.x < cell.x + 1 ∧ cell.x ≤ s.box.high.x) ∧
      s.box.low.y < cell.y + 1 ∧ cell.y ≤ s.box.high.y := by
  have between : (min ⌊s.start.x⌋ ⌊s.stop.x⌋ ≤ cell.x ∧ cell.x ≤ max ⌊s.start.x⌋ ⌊s.stop.x⌋) ∧
      min ⌊s.start.y⌋ ⌊s.stop.y⌋ ≤ cell.y ∧ cell.y ≤ max ⌊s.start.y⌋ ⌊s.stop.y⌋ :=
    Cell.between_of_mem_line member
  simpa only [exact_box, min_le_iff, le_max_iff, Int.floor_le_iff, Int.le_floor, min_lt_iff]
    using between

theorem within_of_clip {inner : Segment ℝ} (clipped : s.clip core = some inner) :
    inner.box.Within s.box := by
  obtain ⟨t, u, first, second, rfl⟩ := exists_parts_of_clip clipped
  have startX := between_of_part (a := s.start.x) (b := s.stop.x) first
  have startY := between_of_part (a := s.start.y) (b := s.stop.y) first
  have stopX := between_of_part (a := s.start.x) (b := s.stop.x) second
  have stopY := between_of_part (a := s.start.y) (b := s.stop.y) second
  simp only [exact_box]
  exact ⟨le_min startX.1 stopX.1, max_le startX.2 stopX.2, le_min startY.1 stopY.1,
    max_le startY.2 stopY.2⟩

/-- A touched pixel is at most one pixel further away from the box of the segment than
`distance`. -/
theorem overlaps_of_touches (positive : 0 < distance) (touched : s.Touches distance core x y) :
    (s.box.inflate (distance + 1)).Overlaps x y := by
  rcases touched with near | ⟨inner, clipped, member⟩
  · refine Box.Within.overlaps ?_ (overlaps_of_near near)
    simp only [Box.exact_inflate]
    constructor <;> linarith
  · obtain ⟨⟨left, right⟩, upper, lower⟩ := box_of_mem_cells member
    refine Box.Within.overlaps ((within_of_clip clipped).inflate _) ?_
    simp only [Box.Overlaps, Box.exact_inflate, Int.cast_natCast] at left right upper lower ⊢
    refine ⟨⟨?_, ?_⟩, ?_, ?_⟩ <;> linarith

/-- Within the reach of a mask, the cells near a segment are those whose center is. -/
theorem mem_near_iff (positive : 0 < distance) {mask : Mask} (reached : mask.Reaches x y) :
    ⟨x, y⟩ ∈ ((s.box.inflate distance).meet mask.box).elim [] (s.nearCells distance) ↔
      s.distance ⟨x + 1 / 2, y + 1 / 2⟩ < distance := by
  have center : (⟨Scalar.ofNat x + Scalar.half, Scalar.ofNat y + Scalar.half⟩ : Point ℝ) =
      ⟨x + 1 / 2, y + 1 / 2⟩ := by
    rw [Scalar.exact_half]
    rfl
  have area {area : Box ℝ} : ⟨x, y⟩ ∈ s.nearCells distance area ↔
      area.Overlaps x y ∧ s.distance ⟨x + 1 / 2, y + 1 / 2⟩ < distance := by
    rw [mem_nearCells, center, floor_toNat_le_iff, floor_toNat_le_iff, lt_ceil_toNat_iff,
      lt_ceil_toNat_iff, ← and_assoc]
    rfl
  have ordered : (s.box.inflate distance).Ordered :=
    (Box.ordered_ofCorners s.start s.stop).inflate positive
  have grid := Box.overlaps_meet_ofCells ordered reached.1 reached.2
  constructor
  · cases met : (s.box.inflate distance).meet mask.box with
    | none => simp
    | some c => exact fun member => (area.mp member).2
  · intro near
    obtain ⟨c, met, overlaps⟩ := grid.mpr (overlaps_of_near near)
    rw [Mask.box, met]
    exact area.mpr ⟨overlaps, near⟩

/-- Within the reach of a mask, a segment marks the pixels that it touches. -/
theorem mem_strokeCells_iff (positive : 0 < distance) {mask : Mask} (reached : mask.Reaches x y) :
    ⟨x, y⟩ ∈ s.strokeCells core distance mask.box ↔ s.Touches distance core x y := by
  have finite : s.isFinite = true := rfl
  have line : ⟨x, y⟩ ∈ (s.clip core).elim [] Segment.cells ↔
      ∃ inner, s.clip core = some inner ∧ ⟨x, y⟩ ∈ inner.cells := by
    cases s.clip core <;> simp
  rw [strokeCells, if_pos finite, List.mem_append, mem_near_iff positive reached, line, or_comm,
    Touches]

end Segment

namespace Stroke

/-- The canvas and one unit around it, where lines of cells are followed. -/
def core (width height : ℕ) : Box ℝ := ⟨⟨-1, -1⟩, ⟨width + 1, height + 1⟩⟩

theorem exact_core (width height : ℕ) :
    ((Box.ofCells 0 0 width height).inflate (Scalar.ofNat 1) : Box ℝ) = core width height := by
  rw [Box.exact_ofCells, Box.exact_inflate, core]
  change Box.mk ⟨((0 : ℕ) : ℝ) - ((1 : ℕ) : ℝ), ((0 : ℕ) : ℝ) - ((1 : ℕ) : ℝ)⟩
    ⟨((0 : ℕ) : ℝ) + width + ((1 : ℕ) : ℝ), ((0 : ℕ) : ℝ) + height + ((1 : ℕ) : ℝ)⟩ = _
  norm_num

end Stroke

/-- Some segment of the outline touches the pixel, on a canvas of a given size and for a stroke of a
given width. -/
def Outline.Touches (o : Outline ℝ) (strokeWidth : ℝ) (width height x y : ℕ) : Prop :=
  ∃ s ∈ o.segments, s.Touches (strokeWidth / 2) (Stroke.core width height) x y

namespace Stroke

variable {o : Outline ℝ} {strokeWidth : ℝ} {width height x y : ℕ}

/-- The part of the canvas that a stroke can reach. -/
noncomputable def region? (o : Outline ℝ) (strokeWidth : ℝ) (width height : ℕ) : Option (Box ℝ) :=
  o.box.bind fun b => (b.inflate (strokeWidth / 2 + 1)).meet (Box.ofCells 0 0 width height)

theorem exact_mask? (o : Outline ℝ) (strokeWidth : ℝ) (width height : ℕ) :
    mask? o strokeWidth width height =
      (region? o strokeWidth width height).map fun region =>
        o.segments.foldl (markSegment (core width height) (strokeWidth / 2))
          (Mask.ofBox region) := by
  have one : (Scalar.ofNat 1 : ℝ) = 1 := Nat.cast_one
  have two : (Scalar.ofNat 2 : ℝ) = 2 := rfl
  rw [← exact_core, one]
  simp only [mask?, region?, one, two, bind, pure, Option.map_eq_bind, Option.bind_assoc,
    Function.comp_def]

theorem exists_marked_iff (positive : 0 < strokeWidth) (xInside : x < width)
    (yInside : y < height) :
    (∃ mask, mask? o strokeWidth width height = some mask ∧ mask.Marked x y) ↔
      o.Touches strokeWidth width height x y := by
  have half : 0 < strokeWidth / 2 := half_pos positive
  have margin : 0 < strokeWidth / 2 + 1 := add_pos half one_pos
  simp only [exact_mask?, Option.map_eq_some_iff, exists_exists_and_eq_and, foldl_markSegment_eq,
    Mask.marked_foldl_mark, Mask.not_marked_ofBox, false_or, List.mem_flatMap, Outline.Touches]
  constructor
  · rintro ⟨region, -, ⟨s, member, marked⟩, reached⟩
    exact ⟨s, member, (Segment.mem_strokeCells_iff half reached).mp marked⟩
  · rintro ⟨s, member, touched⟩
    cases boxed : o.box with
    | none =>
      rw [Outline.segments_of_box_eq_none boxed] at member
      cases member
    | some b =>
      -- A touched pixel is at most one unit beyond the half of the width, so the mask reaches it.
      obtain ⟨ordered, within⟩ := Outline.within_box boxed
      have overlaps : (b.inflate (strokeWidth / 2 + 1)).Overlaps x y :=
        ((within s member).inflate _).overlaps (Segment.overlaps_of_touches half touched)
      obtain ⟨region, met, reached⟩ := (Box.overlaps_meet_ofCells (ordered.inflate margin)
        ⟨x.zero_le, (Nat.zero_add width).symm ▸ xInside⟩
        ⟨y.zero_le, (Nat.zero_add height).symm ▸ yInside⟩).mpr overlaps
      rw [← Mask.reaches_ofBox] at reached
      refine ⟨region, ?_, ⟨s, member, ?_⟩, reached⟩
      · rw [region?, boxed, Option.bind_some, met]
      · exact (Segment.mem_strokeCells_iff half reached).mpr touched

noncomputable instance (o : Outline ℝ) (strokeWidth : ℝ) (width height x y : ℕ) :
    Decidable (o.Touches strokeWidth width height x y) :=
  Classical.propDecidable _

/-- All touched pixels of a canvas, marked in a mask of its size. -/
noncomputable def wholeMask (o : Outline ℝ) (strokeWidth : ℝ) (width height : ℕ) : Mask :=
  ⟨0, 0, Grid.ofFn height width fun y x => decide (o.Touches strokeWidth width height x y)⟩

theorem marked_wholeMask (xInside : x < width) (yInside : y < height) :
    (wholeMask o strokeWidth width height).Marked x y ↔
      o.Touches strokeWidth width height x y := by
  simp [Mask.Marked, wholeMask, Grid.get?_ofFn, xInside, yInside]

theorem countP_runs (positive : 0 < strokeWidth) (xInside : x < width) (yInside : y < height) :
    (runs o strokeWidth width height).countP (·.contains y x) =
      if o.Touches strokeWidth width height x y then 1 else 0 := by
  have enough : Scalar.isFinite strokeWidth ∧ ¬ strokeWidth ≤ Scalar.ofNat 0 ∧ width ≠ 0 ∧
      height ≠ 0 := by
    refine ⟨rfl, ?_, Nat.ne_zero_of_lt xInside, Nat.ne_zero_of_lt yInside⟩
    change ¬ strokeWidth ≤ ((0 : ℕ) : ℝ)
    rwa [Nat.cast_zero, not_le]
  have marked := @exists_marked_iff o strokeWidth width height x y positive xInside yInside
  rw [runs, if_pos enough]
  cases masked : mask? o strokeWidth width height with
  | none => simp [masked] at marked; simp [marked]
  | some mask => simp [masked] at marked; simp [Mask.countP_runs, marked]

end Stroke

/-- In exact arithmetic an outline is stroked by painting each pixel once that it touches, and
leaving every other pixel as it was, as if all of the canvas were masked. The size of the mask and
the places in it are differences of whole numbers, none of which is cut off at zero. -/
theorem Canvas.stroke_paints_touched (o : Outline ℝ) {strokeWidth : ℝ}
    (positive : 0 < strokeWidth) {color : Rgba} (visible : color.isTransparent = false)
    (canvas : Canvas) :
    (∀ x y, x < canvas.width → y < canvas.height →
      (Stroke.runs o strokeWidth canvas.width canvas.height).countP (·.contains y x) =
        if o.Touches strokeWidth canvas.width canvas.height x y then 1 else 0) ∧
    (∀ x y, (canvas.stroke o strokeWidth color).pixel? x y =
      if o.Touches strokeWidth canvas.width canvas.height x y then
        (canvas.pixel? x y).map (·.paintedWith color)
      else canvas.pixel? x y) ∧
    canvas.stroke o strokeWidth color =
      canvas.paintRuns (Stroke.wholeMask o strokeWidth canvas.width canvas.height).runs color ∧
    (∀ b ∈ o.box, ∀ region ∈ (b.inflate (strokeWidth / 2 + 1)).meet
      (Box.ofCells 0 0 canvas.width canvas.height), (Mask.ofBox region).Fits region) ∧
    ∀ (mask : Mask) (cell : Cell), ¬ (cell.x < mask.col ∨ cell.y < mask.row) →
      ((mask.col + (cell.x.toNat - mask.col) : ℕ) : ℤ) = cell.x ∧
        ((mask.row + (cell.y.toNat - mask.row) : ℕ) : ℤ) = cell.y := by
  have stroked : canvas.stroke o strokeWidth color =
      canvas.paintRuns (Stroke.runs o strokeWidth canvas.width canvas.height) color := by
    rw [stroke, visible, if_neg Bool.false_ne_true]
  have count (x y : ℕ) (xInside : x < canvas.width) (yInside : y < canvas.height) :=
    @Stroke.countP_runs o strokeWidth canvas.width canvas.height x y positive xInside yInside
  refine ⟨count, fun x y => ?_, ?_, ?_, ?_⟩
  · rw [stroked, pixel?_paintRuns]
    by_cases inside : y < canvas.height ∧ x < canvas.width
    · rw [count x y inside.2 inside.1]
      split
      · rfl
      · exact Option.map_id_apply
    · simp [pixel?_outside inside]
  · rw [stroked]
    refine paintRuns_congr fun x y xInside yInside => ?_
    simp only [count x y xInside yInside, Mask.countP_runs,
      Stroke.marked_wholeMask xInside yInside]
  · intro b boxed region met
    have margin : 0 < strokeWidth / 2 + 1 := add_pos (half_pos positive) one_pos
    have ordered := (Outline.within_box boxed).1.inflate margin
    have within := (Box.within_of_meet ordered (Box.ordered_ofCells ..) met).2
    rw [Box.exact_ofCells] at within
    exact Mask.fits_ofBox (Box.ordered_meet met) (Nat.cast_zero (R := ℝ) ▸ within.left)
      (Nat.cast_zero (R := ℝ) ▸ within.upper)
  · intro mask cell before
    obtain ⟨col, row, -⟩ := Mask.mark_of_le before
    exact ⟨col, row⟩

/-- A line drawn forth and back. -/
noncomputable def thereAndBack : Outline ℝ :=
  ⟨#[⟨⟨2, 5⟩, #[⟨⟨2, 5⟩, ⟨8, 5⟩⟩, ⟨⟨8, 5⟩, ⟨2, 5⟩⟩], false⟩]⟩

theorem segments_thereAndBack :
    thereAndBack.segments = [⟨⟨2, 5⟩, ⟨8, 5⟩⟩, ⟨⟨8, 5⟩, ⟨2, 5⟩⟩] := rfl

/-- A translucent stroke of a line drawn forth and back is blended with a pixel below it once, and
does not reach the third row from it. -/
theorem Canvas.stroke_thereAndBack :
    (0 : ℝ) < 2 ∧ Rgba.isTransparent ⟨255, 0, 0, 128⟩ = false ∧
      ((blank 10 10 .white).stroke thereAndBack (2 : ℝ) ⟨255, 0, 0, 128⟩).pixel? 5 5 =
        some (Rgba.white.paintedWith ⟨255, 0, 0, 128⟩) ∧
      ((blank 10 10 .white).stroke thereAndBack (2 : ℝ) ⟨255, 0, 0, 128⟩).pixel? 5 8 =
        some .white := by
  have positive : (0 : ℝ) < 2 := two_pos
  have visible : Rgba.isTransparent ⟨255, 0, 0, 128⟩ = false := rfl
  obtain ⟨-, painted, -⟩ :=
    stroke_paints_touched thereAndBack positive visible (blank 10 10 .white)
  have near : thereAndBack.Touches 2 10 10 5 5 := by
    refine ⟨_, by rw [segments_thereAndBack]; exact List.mem_cons_self, .inl ?_⟩
    simp only [Segment.distance, Segment.direction, Point.dot, Point.distance, Point.length,
      Point.scale, Point.exact_sub, Point.exact_add, Scalar.clamp, Scalar.exact_ofNat,
      Scalar.exact_hypot]
    norm_num
  have far : ¬ thereAndBack.Touches 2 10 10 5 8 := by
    rintro ⟨s, member, touched⟩
    obtain ⟨-, -, lower⟩ := Segment.overlaps_of_touches (by norm_num) touched
    have level : s.box.high.y = 5 := by
      rw [segments_thereAndBack] at member
      rw [Segment.exact_box]
      rcases List.mem_pair.mp member with rfl | rfl <;> norm_num
    rw [Box.exact_inflate] at lower
    norm_num [level] at lower
  exact ⟨positive, visible, (painted 5 5).trans (if_pos near), (painted 5 8).trans (if_neg far)⟩

section Near

variable {s : Segment ℝ} {d : ℝ} {mask : Mask} {x y : ℕ}

/-- The pixels are marked that were marked before and those that the mask reaches and whose center
is near. No center is near if the distance is not positive. -/
theorem Mask.marked_markNear :
    (mask.markNear s d).Marked x y ↔
      mask.Marked x y ∨ s.distance ⟨x + 1 / 2, y + 1 / 2⟩ < d ∧ mask.Reaches x y := by
  rw [markNear_eq, marked_foldl_mark]
  refine or_congr_right (and_congr_left fun reached => ?_)
  by_cases positive : 0 < d
  · exact Segment.mem_near_iff positive reached
  · have none_near (q : Point ℝ) : ¬ s.distance q < d :=
      not_lt.mpr ((not_lt.mp positive).trans (s.distance_nonneg q))
    refine iff_of_false ?_ (none_near _)
    cases (s.box.inflate d).meet mask.box with
    | none => exact List.not_mem_nil
    | some area => exact fun member => none_near _ (Segment.mem_nearCells.mp member).2.2

theorem Mask.markNear_reversed (mask : Mask) (s : Segment ℝ) (d : ℝ) :
    mask.markNear s.reversed d = mask.markNear s d := by
  unfold markNear
  simp only [Segment.box_reversed, Segment.distance_reversed]

/-- In exact arithmetic the distance from a segment, also from one with equal ends, is the least
distance from any of its points. It is zero on the segment only, and the same from either end. So
the pixels that are marked near a segment are the same from either end, and no fewer for a greater
distance. -/
theorem Segment.distance_isLeast (s : Segment ℝ) :
    (∀ q, IsLeast {d | ∃ p, s.Holds p ∧ q.distance p = d} (s.distance q)) ∧
      (∀ q, s.distance q = 0 ↔ s.Holds q) ∧
      (∀ q, s.reversed.distance q = s.distance q) ∧
      ∀ mask : Mask, (∀ d, mask.markNear s.reversed d = mask.markNear s d) ∧
        Monotone fun d : ℝ => {cell : ℕ × ℕ | (mask.markNear s d).Marked cell.1 cell.2} := by
  refine ⟨fun q => ⟨s.exists_holds_distance q, ?_⟩, fun q => distance_eq_zero_iff,
    s.distance_reversed, fun mask => ⟨mask.markNear_reversed s, ?_⟩⟩
  · rintro _ ⟨p, holds, rfl⟩
    exact distance_le holds
  · intro d e le cell marked
    rw [Set.mem_ofPred_eq, Mask.marked_markNear] at marked ⊢
    exact marked.imp_right (And.imp_left (lt_of_lt_of_le · le))

end Near

end VectorPaint
