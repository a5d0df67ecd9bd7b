import VectorPaint.Proofs.Plane.Least
import VectorPaint.Proofs.Plane.Level
import VectorPaint.Proofs.Raster.Mask
import VectorPaint.Proofs.Raster.Paint
import VectorPaint.Proofs.Raster.Straight

/-!
Strokes along a row of pixels, in binary floating point. A stroke of at most one unit never paints a
pixel of another row, however far it reaches. It paints all of its row if it crosses the canvas and
is not longer than the whole numbers that a mantissa holds; beyond that length the visible part of
it can be lost.
-/
namespace VectorPaint

open Binary64

/-- The open path of one segment. -/
def Outline.ofSegment {α : Type} (s : Segment α) : Outline α := ⟨#[⟨s.start, #[s], false⟩]⟩

namespace Stroke

variable {α : Type} [Scalar α]

/-- The mask of a single segment covers what its box can reach of the canvas. -/
theorem mask?_ofSegment (s : Segment α) (strokeWidth : α) (width height : ℕ) :
    mask? (.ofSegment s) strokeWidth width height =
      ((s.box.inflate (strokeWidth / Scalar.ofNat 2 + Scalar.ofNat 1)).meet
        (Box.ofCells 0 0 width height)).map fun region =>
        markSegment ((Box.ofCells 0 0 width height).inflate (Scalar.ofNat 1))
          (strokeWidth / Scalar.ofNat 2) (.ofBox region) s := by
  have box : (Outline.ofSegment s).box = some s.box := rfl
  have segments : (Outline.ofSegment s).segments = [s] := rfl
  simp only [mask?, box, segments, bind, pure, Option.bind_some, Option.map_eq_bind,
    List.foldl_cons, List.foldl_nil]
  rfl

theorem marked_markSegment {core region : Box α} {distance : α} {s : Segment α} {x y : ℕ} :
    (markSegment core distance (.ofBox region) s).Marked x y ↔
      ⟨x, y⟩ ∈ s.strokeCells core distance (Mask.ofBox region).box ∧
        (Mask.ofBox region).Reaches x y := by
  rw [markSegment_eq, Mask.marked_foldl_mark, or_iff_right (Mask.not_marked_ofBox region x y)]

end Stroke

namespace Canvas

variable {α : Type} [Scalar α] {canvas : Canvas} {o : Outline α} {strokeWidth : α} {color : Rgba}
  {x y : ℕ}

@[simp] theorem width_stroke : (canvas.stroke o strokeWidth color).width = canvas.width := by
  unfold stroke
  split <;> simp

@[simp] theorem height_stroke : (canvas.stroke o strokeWidth color).height = canvas.height := by
  unfold stroke
  split <;> simp

theorem pixel?_stroke_of_unmarked
    (unmarked : ∀ mask, Stroke.mask? o strokeWidth canvas.width canvas.height = some mask →
      ¬ mask.Marked x y) :
    (canvas.stroke o strokeWidth color).pixel? x y = canvas.pixel? x y := by
  have none :
      (Stroke.runs o strokeWidth canvas.width canvas.height).countP (·.contains y x) = 0 := by
    unfold Stroke.runs
    split
    · split
      · rfl
      · rename_i mask masked
        rw [Mask.countP_runs, if_neg (unmarked mask masked)]
    · rfl
  unfold stroke
  split
  · rfl
  · rw [pixel?_paintRuns, none]
    exact Option.map_id_apply

theorem pixel?_stroke_of_marked (solid : color.isOpaque = true)
    (finite : Scalar.isFinite strokeWidth = true) (positive : ¬ strokeWidth ≤ Scalar.ofNat 0)
    {mask : Mask} (masked : Stroke.mask? o strokeWidth canvas.width canvas.height = some mask)
    (marked : mask.Marked x y) (colInside : x < canvas.width) (rowInside : y < canvas.height) :
    (canvas.stroke o strokeWidth color).pixel? x y = some color := by
  have proper : Scalar.isFinite strokeWidth ∧ ¬ strokeWidth ≤ Scalar.ofNat 0 ∧ canvas.width ≠ 0 ∧
      canvas.height ≠ 0 :=
    ⟨finite, positive, Nat.ne_zero_of_lt colInside, Nat.ne_zero_of_lt rowInside⟩
  have once :
      (Stroke.runs o strokeWidth canvas.width canvas.height).countP (·.contains y x) = 1 := by
    rw [Stroke.runs, if_pos proper, masked]
    exact (Mask.countP_runs ..).trans (if_pos marked)
  obtain ⟨pixel, found⟩ : ∃ pixel, canvas.pixel? x y = some pixel := by
    rw [← Option.isSome_iff_exists, pixel?, Grid.get?_isSome, Grid.contains_iff]
    exact ⟨rowInside, colInside⟩
  rw [stroke, Rgba.isTransparent_of_solid solid, if_neg Bool.false_ne_true, pixel?_paintRuns, once,
    found]
  exact congrArg some (Rgba.paintedWith_of_solid solid pixel)

end Canvas

/-- The range is determinate and holds the whole numbers from `u` to `v`. -/
structure Spans (low high : Float) (u v : ℕ) : Prop where
  determinate_low : Determinate low
  determinate_high : Determinate high
  low_le : number low ≤ (u : ℝ)
  le_high : (v : ℝ) ≤ number high

namespace Spans

variable {low high low₀ high₀ low₁ high₁ : Float} {u v : ℕ}

theorem le (spans : Spans low high u v) (ordered : u ≤ v) : low ≤ high := by
  rw [le_iff_number spans.determinate_low spans.determinate_high]
  have between : ((u : ℝ) : EReal) ≤ (v : ℝ) := by exact_mod_cast ordered
  exact spans.low_le.trans (between.trans spans.le_high)

/-- What two ranges hold is held by their common part. -/
theorem meetRanges (first : Spans low₀ high₀ u v) (second : Spans low₁ high₁ u v)
    (ordered : u ≤ v) :
    ∃ low high, Box.meetRanges low₀ high₀ low₁ high₁ = some (low, high) ∧ Spans low high u v := by
  have between : ((u : ℝ) : EReal) ≤ (v : ℝ) := by exact_mod_cast ordered
  have apart : ¬ high₁ < low₀ := by
    rw [lt_iff_number second.determinate_high first.determinate_low, not_lt]
    exact first.low_le.trans (between.trans second.le_high)
  have apart' : ¬ high₀ < low₁ := by
    rw [lt_iff_number first.determinate_high second.determinate_low, not_lt]
    exact second.low_le.trans (between.trans first.le_high)
  refine ⟨_, _, by rw [Box.meetRanges, if_neg apart, if_neg apart'], ?_⟩
  have greatest : Scalar.greatest low₀ low₁ = low₀ ∨ Scalar.greatest low₀ low₁ = low₁ := by
    unfold Scalar.greatest
    split_ifs <;> simp
  have least : Scalar.least high₀ high₁ = high₀ ∨ Scalar.least high₀ high₁ = high₁ := by
    unfold Scalar.least
    split_ifs <;> simp
  constructor
  · rcases greatest with same | same <;> rw [same]
    exacts [first.determinate_low, second.determinate_low]
  · rcases least with same | same <;> rw [same]
    exacts [first.determinate_high, second.determinate_high]
  · rcases greatest with same | same <;> rw [same]
    exacts [first.low_le, second.low_le]
  · rcases least with same | same <;> rw [same]
    exacts [first.le_high, second.le_high]

theorem inflate {p q m : ℝ} {margin : Float} (start : Denotes low p) (stop : Denotes high q)
    (moved : Denotes margin m) (left : p - m ≤ u) (right : v ≤ q + m) (small : u < 2 ^ 53)
    (small' : v < 2 ^ 53) : Spans (low - margin) (high + margin) u v where
  determinate_low := (start.sub moved).determinate
  determinate_high := (stop.add moved).determinate
  low_le := by
    rw [(start.sub moved).number_eq, ← stored_natCast small]
    exact stored_mono left
  le_high := by
    rw [(stop.add moved).number_eq, ← stored_natCast small']
    exact stored_mono right

theorem ofNat {n : ℕ} (within : v ≤ n) (small : v < 2 ^ 53) :
    Spans (Scalar.ofNat 0) (Scalar.ofNat n) u v where
  determinate_low := (stores_ofNat 0).determinate
  determinate_high := (stores_ofNat n).determinate
  low_le := by
    rw [(stores_ofNat 0).number_eq, stored_natCast (by decide)]
    exact_mod_cast u.zero_le
  le_high := by
    rw [(stores_ofNat n).number_eq, ← stored_natCast small]
    exact stored_mono (Nat.cast_le.mpr within)

end Spans

namespace Box

variable {width height row : ℕ}

/-- The box holds the squares of a row in all columns. -/
structure HoldsRow (box : Box Float) (width row : ℕ) : Prop where
  columns : Spans box.low.x box.high.x 0 width
  row : Spans box.low.y box.high.y row (row + 1)

/-- Of two numbers the lower one comes first. -/
theorem denotes_sorted {p q : Float} {a b : ℝ} (first : Denotes p a) (second : Denotes q b) :
    Denotes (if p ≤ q then (p, q) else (q, p)).1 (min a b) ∧
      Denotes (if p ≤ q then (p, q) else (q, p)).2 (max a b) := by
  simp only [first.le_iff second]
  split
  · rename_i order
    rw [min_eq_left order, max_eq_right order]
    exact ⟨first, second⟩
  · rename_i order
    rw [min_eq_right (not_le.mp order).le, max_eq_left (not_le.mp order).le]
    exact ⟨second, first⟩

/-- The corners of a box are the lower and the higher numbers. -/
theorem denotes_ofCorners {p q : Point Float} {a b c d : ℝ} (startX : Denotes p.x a)
    (stopX : Denotes q.x b) (startY : Denotes p.y c) (stopY : Denotes q.y d) :
    (Denotes (ofCorners p q).low.x (min a b) ∧ Denotes (ofCorners p q).high.x (max a b)) ∧
      Denotes (ofCorners p q).low.y (min c d) ∧ Denotes (ofCorners p q).high.y (max c d) :=
  ⟨denotes_sorted startX stopX, denotes_sorted startY stopY⟩

theorem HoldsRow.meet {a b : Box Float} (first : a.HoldsRow width row)
    (second : b.HoldsRow width row) : ∃ c, a.meet b = some c ∧ c.HoldsRow width row := by
  obtain ⟨left, right, columns, xSpans⟩ := first.columns.meetRanges second.columns width.zero_le
  obtain ⟨upper, lower, rows, ySpans⟩ := first.row.meetRanges second.row row.le_succ
  have corners : ofCorners ⟨left, upper⟩ ⟨right, lower⟩ = ⟨⟨left, upper⟩, ⟨right, lower⟩⟩ :=
    ofCorners_of_le (xSpans.le width.zero_le) (ySpans.le row.le_succ)
  refine ⟨⟨⟨left, upper⟩, ⟨right, lower⟩⟩, ?_, xSpans, ySpans⟩
  simp only [Box.meet, columns, rows, corners, bind, pure, Option.bind_some]

theorem HoldsRow.reaches_ofBox {region : Box Float} (holds : region.HoldsRow width row)
    (width_small : width < 2 ^ 53) (row_small : row + 1 < 2 ^ 53) {x : ℕ} (inside : x < width) :
    (Mask.ofBox region).Reaches x row := by
  have left := floor_toNat_le holds.columns.determinate_low holds.columns.low_le
  have right := le_ceil_toNat width_small holds.columns.determinate_high holds.columns.le_high
  have upper := floor_toNat_le holds.row.determinate_low holds.row.low_le
  have lower := le_ceil_toNat row_small holds.row.determinate_high holds.row.le_high
  change ((floor region.low.x).toNat ≤ x ∧
    x < (floor region.low.x).toNat + ((ceil region.high.x).toNat - (floor region.low.x).toNat)) ∧
    (floor region.low.y).toNat ≤ row ∧
    row < (floor region.low.y).toNat + ((ceil region.high.y).toNat - (floor region.low.y).toNat)
  omega

theorem ofCells_eq (width height : ℕ) :
    (ofCells 0 0 width height : Box Float) =
      ⟨⟨Scalar.ofNat 0, Scalar.ofNat 0⟩, ⟨Scalar.ofNat width, Scalar.ofNat height⟩⟩ := by
  have ordered (n : ℕ) : (Scalar.ofNat 0 : Float) ≤ Scalar.ofNat n := by
    rw [le_iff_number (stores_ofNat 0).determinate (stores_ofNat n).determinate,
      (stores_ofNat 0).number_eq, (stores_ofNat n).number_eq]
    exact stored_mono (Nat.cast_le.mpr n.zero_le)
  rw [ofCells, Nat.zero_add, Nat.zero_add]
  exact ofCorners_of_le (ordered width) (ordered height)

theorem holdsRow_ofCells (width_small : width < 2 ^ 53) (row_small : row + 1 < 2 ^ 53)
    (inside : row < height) : (ofCells 0 0 width height : Box Float).HoldsRow width row := by
  rw [ofCells_eq]
  exact ⟨.ofNat le_rfl width_small, .ofNat inside row_small⟩

theorem around_ofCells (width_small : width + 1 < 2 ^ 53) (row_small : row + 1 < 2 ^ 53)
    (inside : row < height) :
    Segment.Around ((ofCells 0 0 width height).inflate (Scalar.ofNat 1)) width row := by
  rw [ofCells_eq]
  have less : Denotes ((0 : Float) - 1) (-1) := by
    have difference := denotes_zero.sub denotes_one
    rw [zero_sub] at difference
    exact difference.exact denotes_one.neg
  have next : Denotes (Scalar.ofNat (width + 1)) (width + 1) := by
    exact_mod_cast denotes_ofNat width_small
  have stores := stores_ofNat height
  refine ⟨less, ((denotes_ofNat (by omega)).add denotes_one).exact next, less,
    stores.determinate.add denotes_one, ?_⟩
  have reached : ((row : ℝ) : EReal) ≤ number (Scalar.ofNat height) := by
    rw [stores.number_eq, ← stored_natCast (n := row) (by omega)]
    exact stored_mono (Nat.cast_le.mpr inside.le)
  rw [← stored_natCast row_small, Nat.cast_succ]
  exact denotes_one.le_number_add stores.determinate reached

end Box

namespace Segment

variable {s : Segment Float} {width row : ℕ} {a b : ℝ}

theorem Level.holdsRow_inflate (level : s.Level row a b) (crosses : Crosses width a b)
    {margin : Float} {m : ℝ} (moved : Denotes margin m) (beyond : 1 ≤ m) :
    (s.box.inflate margin).HoldsRow width row := by
  obtain ⟨⟨left, right⟩, upper, lower⟩ :=
    Box.denotes_ofCorners level.startX level.stopX level.startY level.stopY
  have width_le := crosses.width_le
  have row_lt := level.startY.lt_of_half
  rw [min_self] at upper
  rw [max_self] at lower
  constructor
  · refine .inflate left right moved ?_ ?_ (by omega) (by omega)
    · push_cast
      linarith [crosses.left]
    · linarith [crosses.right]
  · refine .inflate upper lower moved ?_ ?_ (by omega) (by omega)
    · linarith
    · push_cast
      linarith

/-- Both ends of a clipped segment have their cells in the row. -/
theorem Level.clip_rows (level : s.Level row a b) {core : Box Float} {inner : Segment Float}
    (clipped : s.clip core = some inner) :
    Scalar.floor inner.start.y = row ∧ Scalar.floor inner.stop.y = row := by
  have small := level.startY.lt_of_half
  obtain ⟨start, stop⟩ := level.clip_y clipped
  exact ⟨start.floor_natCast (by omega) (by linarith) (by linarith),
    stop.floor_natCast (by omega) (by linarith) (by linarith)⟩

/-- The line of cells of a clipped segment only has cells of the row. -/
theorem Level.row_of_mem_cells (level : s.Level row a b) {core : Box Float} {inner : Segment Float}
    (clipped : s.clip core = some inner) {cell : Cell} (member : cell ∈ inner.cells) :
    cell.y = row := by
  obtain ⟨start, stop⟩ := level.clip_rows clipped
  have rows := (Cell.between_of_mem_line member).2
  simp only [start, stop, min_self, max_self] at rows
  exact le_antisymm rows.2 rows.1

/-- The line of cells of a clipped segment that crosses the columns has the cell in each of them. -/
theorem Level.mem_cells (level : s.Level row a b) {core : Box Float}
    (around : Around core width row) (crosses : Crosses width a b) {x : ℕ} (inside : x < width) :
    ∃ inner, s.clip core = some inner ∧ ⟨x, row⟩ ∈ inner.cells := by
  have width_le := crosses.width_le
  obtain ⟨inner, p, q, clipped, startX, stopX, left, right⟩ :=
    level.clip_across around crosses (by omega)
  obtain ⟨startRow, stopRow⟩ := level.clip_rows clipped
  have startCol : Scalar.floor inner.start.x = saturate ⌊p⌋ := startX.floor_eq
  have stopCol : Scalar.floor inner.stop.x = saturate ⌊q⌋ := stopX.floor_eq
  have held : Monotone fun r : ℝ => saturate ⌊r⌋ := saturate_mono.comp Int.floor_mono
  have first : min (Scalar.floor inner.start.x) (Scalar.floor inner.stop.x) ≤ x := by
    rw [startCol, stopCol]
    calc min (saturate ⌊p⌋) (saturate ⌊q⌋) = saturate ⌊min p q⌋ := held.map_min.symm
      _ ≤ saturate ⌊(1 / 2 : ℝ)⌋ := held left
      _ = 0 := by norm_num [saturate, leastWhole, greatestWhole]
      _ ≤ x := Int.natCast_nonneg x
  have last : x ≤ max (Scalar.floor inner.start.x) (Scalar.floor inner.stop.x) := by
    rw [startCol, stopCol]
    calc (x : ℤ) ≤ (width - 1 : ℕ) := by omega
      _ = saturate ⌊((width - 1 : ℕ) : ℝ)⌋ := by
        rw [Int.floor_natCast, saturate_natCast (by omega)]
      _ ≤ saturate ⌊max p q⌋ := held right
      _ = max (saturate ⌊p⌋) (saturate ⌊q⌋) := held.map_max
  refine ⟨inner, clipped, ?_⟩
  rw [cells, ← startRow]
  exact Cell.mem_line_of_level (startRow.trans stopRow.symm) first last

/-- Nothing of a stroke of at most one unit lies in another row. -/
theorem Level.row_of_mem_strokeCells (level : s.Level row a b) {core window : Box Float}
    {distance : Float} {d : ℝ} (width : Denotes distance d) (thin : d ≤ 1 / 2) {x y : ℕ}
    (member : ⟨x, y⟩ ∈ s.strokeCells core distance window) : y = row := by
  unfold strokeCells at member
  split at member
  · rcases List.mem_append.mp member with line | near
    · cases clipped : s.clip core with
      | none =>
        rw [clipped] at line
        cases line
      | some inner =>
        rw [clipped] at line
        exact Int.ofNat_inj.mp (level.row_of_mem_cells clipped line)
    · cases met : (s.box.inflate distance).meet window with
      | none =>
        rw [met] at near
        cases near
      | some area =>
        rw [met] at near
        by_contra off
        exact level.not_near off _ width thin (mem_nearCells.mp near).2.2
  · cases member

theorem Level.isFinite (level : s.Level row a b) : s.isFinite = true := by
  simp only [Segment.isFinite, Point.isFinite, Bool.and_eq_true]
  exact ⟨⟨level.startX.isFinite, level.startY.isFinite⟩, level.stopX.isFinite, level.stopY.isFinite⟩

/-- A stroke that crosses the columns has the pixel in each of them. -/
theorem Level.mem_strokeCells (level : s.Level row a b) {core window : Box Float}
    {distance : Float} (around : Around core width row) (crosses : Crosses width a b) {x : ℕ}
    (inside : x < width) : ⟨x, row⟩ ∈ s.strokeCells core distance window := by
  obtain ⟨inner, clipped, member⟩ := level.mem_cells around crosses inside
  rw [strokeCells, if_pos level.isFinite, clipped]
  exact List.mem_append_left _ member

end Segment

namespace Canvas

variable {canvas : Canvas} {s : Segment Float} {row : ℕ} {a b w : ℝ} {strokeWidth : Float}
  {color : Rgba}

/-- Half of a width of at most one unit. -/
theorem denotes_halfWidth (width : Denotes strokeWidth w) (positive : 0 < w) (thin : w ≤ 1) :
    ∃ d, Denotes (strokeWidth / Scalar.ofNat 2) d ∧ 0 ≤ d ∧ d ≤ 1 / 2 := by
  have two : Denotes (Scalar.ofNat 2) (2 : ℕ) := denotes_ofNat (by decide)
  rw [Nat.cast_ofNat] at two
  have half := (width.div two two_ne_zero).denotes_of_lt (by
    rw [abs_of_nonneg (by positivity)]
    linarith)
  exact ⟨_, half, rounded_nonneg (by positivity), denotes_half.rounded_le (by linarith)⟩

/-- A stroke of at most one unit along a row only paints pixels of the row, however far it reaches.
It paints all of them if it crosses the canvas and its ends are not too far apart. -/
theorem stroke_level (canvas : Canvas) (level : s.Level row a b) (inside : row < canvas.height)
    (width : Denotes strokeWidth w) (positive : 0 < w) (thin : w ≤ 1)
    (solid : color.isOpaque = true) :
    ((canvas.stroke (.ofSegment s) strokeWidth color).width = canvas.width ∧
      (canvas.stroke (.ofSegment s) strokeWidth color).height = canvas.height) ∧
    (∀ x y, y ≠ row →
      (canvas.stroke (.ofSegment s) strokeWidth color).pixel? x y = canvas.pixel? x y) ∧
    (Segment.Crosses canvas.width a b → ∀ x < canvas.width,
      (canvas.stroke (.ofSegment s) strokeWidth color).pixel? x row = some color) := by
  obtain ⟨d, distance, d_nonneg, d_le⟩ := denotes_halfWidth width positive thin
  refine ⟨⟨width_stroke, height_stroke⟩, fun x y off => ?_, fun crosses x column => ?_⟩
  · refine pixel?_stroke_of_unmarked fun mask masked marked => off ?_
    rw [Stroke.mask?_ofSegment, Option.map_eq_some_iff] at masked
    obtain ⟨region, -, rfl⟩ := masked
    exact level.row_of_mem_strokeCells distance d_le (Stroke.marked_markSegment.mp marked).1
  · have row_small := level.startY.lt_of_half
    have width_le := crosses.width_le
    have sum : Denotes (strokeWidth / Scalar.ofNat 2 + Scalar.ofNat 1) (rounded (d + 1)) :=
      (distance.add denotes_one).denotes_of_lt (by
        rw [abs_of_nonneg (by linarith)]
        linarith)
    have beyond : 1 ≤ rounded (d + 1) := denotes_one.le_rounded (by linarith)
    obtain ⟨region, met, holds⟩ := (level.holdsRow_inflate crosses sum beyond).meet
      (Box.holdsRow_ofCells (by omega) (by omega) inside)
    have masked := Stroke.mask?_ofSegment s strokeWidth canvas.width canvas.height
    rw [met, Option.map_some] at masked
    refine pixel?_stroke_of_marked solid width.isFinite ?_ masked ?_ column inside
    · exact mt (width.le_iff denotes_zero).mp (not_le.mpr positive)
    · rw [Stroke.marked_markSegment]
      exact ⟨level.mem_strokeCells (Box.around_ofCells (by omega) (by omega) inside) crosses column,
        holds.reaches_ofBox (by omega) (by omega) column⟩

/-- A line along the third row, as far to the left as to the right. -/
def thirdRow (reach : Float) : Segment Float := ⟨⟨-reach, 2.5⟩, ⟨reach, 2.5⟩⟩

theorem level_thirdRow {reach : Float} {r : ℝ} (denotes : Denotes reach r) :
    (thirdRow reach).Level 2 (-r) r := by
  have center : Denotes 2.5 ((2 : ℕ) + 1 / 2) :=
    denotes_of_decode (show decode 2.5 = .finite false 5629499534213120 (-51) by decide +kernel)
      (by norm_num [signed])
  exact ⟨denotes.neg, denotes, center, center⟩

/-- A stroke that reaches far beyond a canvas covers all of the row. -/
theorem stroke_thirdRow :
    (thirdRow 1e12).Level 2 (-10 ^ 12) (10 ^ 12) ∧ Denotes 1 1 ∧ (0 : ℝ) < 1 ∧ (1 : ℝ) ≤ 1 ∧
      Rgba.isOpaque ⟨255, 0, 0, 255⟩ = true ∧ Segment.Crosses 6 (-10 ^ 12) (10 ^ 12) ∧
      (∀ x < 6, ((blank 6 5 .white).stroke (.ofSegment (thirdRow 1e12)) (1 : Float)
        ⟨255, 0, 0, 255⟩).pixel? x 2 = some ⟨255, 0, 0, 255⟩) ∧
      ((blank 6 5 .white).stroke (.ofSegment (thirdRow 1e12)) (1 : Float)
        ⟨255, 0, 0, 255⟩).pixel? 3 3 = some .white := by
  have reach : Denotes 1e12 (10 ^ 12) :=
    denotes_of_decode (show decode 1e12 = .finite false 8192000000000000 (-13) by decide +kernel)
      (by norm_num [signed])
  have crosses : Segment.Crosses 6 (-10 ^ 12) (10 ^ 12) := by
    constructor <;> norm_num
  have solid : Rgba.isOpaque ⟨255, 0, 0, 255⟩ = true := rfl
  obtain ⟨-, others, all⟩ := stroke_level (blank 6 5 .white) (level_thirdRow reach) (by decide)
    denotes_one one_pos le_rfl solid
  exact ⟨level_thirdRow reach, denotes_one, one_pos, le_rfl, solid, crosses, all crosses,
    (others 3 3 (by decide)).trans (by decide +kernel)⟩

/-- From further away only one pixel of the row is left of a stroke that covers all of it. -/
theorem stroke_lostRow :
    (thirdRow 1e17).Level 2 (-10 ^ 17) (10 ^ 17) ∧ Denotes 1 1 ∧
      Rgba.isOpaque ⟨255, 0, 0, 255⟩ = true ∧
      (List.range 6).map (((blank 6 5 .white).stroke (.ofSegment (thirdRow 1e17)) (1 : Float)
        ⟨255, 0, 0, 255⟩).pixel? · 2) =
        some ⟨255, 0, 0, 255⟩ :: List.replicate 5 (some .white) := by
  have reach : Denotes 1e17 (10 ^ 17) :=
    denotes_of_decode (show decode 1e17 = .finite false 6250000000000000 4 by decide +kernel)
      (by norm_num [signed])
  exact ⟨level_thirdRow reach, denotes_one, rfl, by decide +kernel⟩

end Canvas

end VectorPaint
