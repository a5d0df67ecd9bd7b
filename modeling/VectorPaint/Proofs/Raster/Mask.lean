import Mathlib.Data.List.Nodup
import Mathlib.Data.List.Count
import VectorPaint.Proofs.Raster.Paint
import VectorPaint.Raster.Stroke

/-!
What a mask holds. A mask reaches the pixels of its part of the canvas and holds the marked ones
among them. Every step of a stroke marks a list of cells, so in the end those are marked that are in
one of the lists and within reach, and the runs of the mask hold each of them once.
-/
namespace VectorPaint

namespace Mask

variable {mask : Mask} {x y : ℕ}

/-- The pixel lies in the part of the canvas that the mask is for. -/
def Reaches (mask : Mask) (x y : ℕ) : Prop :=
  (mask.col ≤ x ∧ x < mask.col + mask.marks.width) ∧
    mask.row ≤ y ∧ y < mask.row + mask.marks.height

def Marked (mask : Mask) (x y : ℕ) : Prop :=
  (mask.col ≤ x ∧ mask.row ≤ y) ∧
    mask.marks.get? (y - mask.row) (x - mask.col) = some true

instance (mask : Mask) (x y : ℕ) : Decidable (mask.Marked x y) :=
  inferInstanceAs (Decidable ((_ ∧ _) ∧ _))

@[simp] theorem col_mark (mask : Mask) (cell : Cell) : (mask.mark cell).col = mask.col := by
  unfold mark
  split <;> rfl

@[simp] theorem row_mark (mask : Mask) (cell : Cell) : (mask.mark cell).row = mask.row := by
  unfold mark
  split <;> rfl

@[simp] theorem width_mark (mask : Mask) (cell : Cell) :
    (mask.mark cell).marks.width = mask.marks.width := by
  unfold mark
  split
  · rfl
  · exact Grid.width_modify ..

@[simp] theorem height_mark (mask : Mask) (cell : Cell) :
    (mask.mark cell).marks.height = mask.marks.height := by
  unfold mark
  split
  · rfl
  · exact Grid.height_modify ..

/-- A cell at or after the corner of the mask has its place at the difference of the two. -/
theorem mark_of_le {cell : Cell} (after : ¬ (cell.x < mask.col ∨ cell.y < mask.row)) :
    ((mask.col + (cell.x.toNat - mask.col) : ℕ) : ℤ) = cell.x ∧
      ((mask.row + (cell.y.toNat - mask.row) : ℕ) : ℤ) = cell.y ∧
      mask.mark cell = { mask with
        marks := mask.marks.set (cell.y.toNat - mask.row) (cell.x.toNat - mask.col) true } := by
  refine ⟨?_, ?_, if_neg after⟩ <;> omega

theorem marked_mark {cell : Cell} :
    (mask.mark cell).Marked x y ↔ mask.Marked x y ∨ cell = ⟨x, y⟩ ∧ mask.Reaches x y := by
  unfold Marked Reaches
  rw [col_mark, row_mark]
  by_cases before : cell.x < mask.col ∨ cell.y < mask.row
  · have other : mask.col ≤ x ∧ mask.row ≤ y → cell ≠ ⟨x, y⟩ := by
      rintro ⟨col, row⟩ rfl
      simp only at before
      omega
    rw [mark, if_pos before]
    tauto
  · obtain ⟨col, row, marked⟩ := mark_of_le before
    rw [marked]
    simp only [Grid.get?_set]
    by_cases same : cell = ⟨x, y⟩
    · subst same
      simp only [Int.toNat_natCast, and_self, if_true, Option.map_eq_some_iff, and_true,
        ← Option.isSome_iff_exists, Grid.get?_isSome, Grid.contains_iff, true_and]
      have found : mask.marks.get? (y - mask.row) (x - mask.col) = some true →
          y - mask.row < mask.marks.height ∧ x - mask.col < mask.marks.width := by
        intro marked
        rw [← Grid.contains_iff, ← Grid.get?_isSome, marked, Option.isSome_some]
      constructor
      · rintro ⟨within, inside⟩
        exact .inr (by omega)
      · rintro (⟨within, marked⟩ | reached)
        · exact ⟨within, found marked⟩
        · omega
    · have elsewhere : mask.col ≤ x ∧ mask.row ≤ y →
          ¬ (y - mask.row = cell.y.toNat - mask.row ∧ x - mask.col = cell.x.toNat - mask.col) := by
        rintro within ⟨sameRow, sameCol⟩
        apply same
        cases cell
        simp only [Cell.mk.injEq] at *
        omega
      simp only [same, false_and, or_false, and_congr_right_iff]
      intro within
      rw [if_neg (elsewhere within)]

/-- Marking changes no size. -/
theorem reaches_mark {cell : Cell} : (mask.mark cell).Reaches x y ↔ mask.Reaches x y := by
  simp [Reaches]

theorem marked_foldl_mark {cells : List Cell} :
    (cells.foldl mark mask).Marked x y ↔
      mask.Marked x y ∨ ⟨x, y⟩ ∈ cells ∧ mask.Reaches x y := by
  induction cells generalizing mask with
  | nil => simp
  | cons cell rest ih =>
    rw [List.foldl_cons, ih, marked_mark, reaches_mark, List.mem_cons, eq_comm]
    tauto

theorem not_marked_ofBox {α : Type} [Scalar α] (region : Box α) (x y : ℕ) :
    ¬ (ofBox region).Marked x y := by
  rintro ⟨-, marked⟩
  simp [ofBox, Grid.get?_ofFn] at marked

theorem box_foldl_mark {α : Type} [Scalar α] (mask : Mask) (cells : List Cell) :
    ((cells.foldl mark mask).box : Box α) = mask.box := by
  induction cells generalizing mask with
  | nil => rfl
  | cons cell rest ih =>
    rw [List.foldl_cons, ih, box, col_mark, row_mark, width_mark, height_mark, ← box]

/-- The runs of one row of the mask. -/
private def rowRuns (mask : Mask) (row : ℕ) : List Run :=
  (List.range mask.marks.width).filterMap fun col =>
    if mask.marks.get? row col = some true then
      some ⟨mask.row + row, mask.col + col, mask.col + col + 1⟩
    else none

private theorem mem_rowRuns {row : ℕ} {run : Run} :
    run ∈ mask.rowRuns row ↔
      ∃ col, mask.marks.get? row col = some true ∧
        run = ⟨mask.row + row, mask.col + col, mask.col + col + 1⟩ := by
  simp only [rowRuns, List.mem_filterMap, List.mem_range, Option.ite_none_right_eq_some,
    Option.some.injEq, eq_comm (a := run)]
  refine exists_congr fun col => and_iff_right_of_imp ?_
  rintro ⟨marked, -⟩
  exact (Grid.contains_iff.mp (by rw [← Grid.get?_isSome, marked, Option.isSome_some])).2

theorem mem_runs {run : Run} :
    run ∈ mask.runs ↔ ∃ x y, mask.Marked x y ∧ run = ⟨y, x, x + 1⟩ := by
  change run ∈ (List.range mask.marks.height).flatMap mask.rowRuns ↔ _
  simp only [List.mem_flatMap, List.mem_range, mem_rowRuns]
  constructor
  · rintro ⟨row, -, col, marked, rfl⟩
    exact ⟨mask.col + col, mask.row + row, by simpa [Marked] using marked, rfl⟩
  · rintro ⟨x, y, ⟨⟨col, row⟩, marked⟩, rfl⟩
    have inside := Grid.contains_iff.mp (by rw [← Grid.get?_isSome, marked, Option.isSome_some])
    refine ⟨y - mask.row, inside.1, x - mask.col, marked, ?_⟩
    rw [Nat.add_sub_cancel' row, Nat.add_sub_cancel' col]

theorem nodup_runs (mask : Mask) : mask.runs.Nodup := by
  change ((List.range mask.marks.height).flatMap mask.rowRuns).Nodup
  rw [List.nodup_flatMap]
  constructor
  · intro row _
    refine List.nodup_range.filterMap fun col col' run first second => ?_
    simp only [Option.mem_def, Option.ite_none_right_eq_some, Option.some.injEq] at first second
    have same := congrArg Run.start (first.2.trans second.2.symm)
    exact Nat.add_left_cancel same
  · refine List.nodup_range.imp ?_
    intro row row' different run first second
    obtain ⟨col, -, rfl⟩ := mem_rowRuns.mp first
    obtain ⟨col', -, same⟩ := mem_rowRuns.mp second
    exact different (Nat.add_left_cancel (congrArg Run.row same))

theorem countP_runs (mask : Mask) (x y : ℕ) :
    mask.runs.countP (·.contains y x) = if mask.Marked x y then 1 else 0 := by
  have one : ∀ run ∈ mask.runs, run.contains y x = (run == ⟨y, x, x + 1⟩) := by
    intro run member
    obtain ⟨x', y', -, rfl⟩ := mem_runs.mp member
    apply Bool.eq_iff_iff.mpr
    simp only [Run.contains, Bool.and_eq_true, decide_eq_true_eq, beq_iff_eq, Run.mk.injEq]
    omega
  have marked : ⟨y, x, x + 1⟩ ∈ mask.runs ↔ mask.Marked x y := by
    simp only [mem_runs, Run.mk.injEq]
    grind
  rw [List.countP_congr fun run member => by rw [one run member], ← List.count.eq_1,
    List.Nodup.count mask.nodup_runs]
  simp only [marked]

end Mask

section Marking

variable {α : Type} [Scalar α]

/-- The line of cells of a segment. -/
def Segment.cells (s : Segment α) : List Cell :=
  Cell.line ⟨Scalar.floor s.start.x, Scalar.floor s.start.y⟩
    ⟨Scalar.floor s.stop.x, Scalar.floor s.stop.y⟩

/-- The cells of an area whose center is closer to a segment than `distance`. -/
def Segment.nearCells (s : Segment α) (distance : α) (area : Box α) : List Cell :=
  let left := (Scalar.floor area.low.x).toNat
  let right := (Scalar.ceil area.high.x).toNat
  let top := (Scalar.floor area.low.y).toNat
  let bottom := (Scalar.ceil area.high.y).toNat
  (List.range' top (bottom - top)).flatMap fun y =>
    (List.range' left (right - left)).filterMap fun x =>
      if s.distance ⟨Scalar.ofNat x + Scalar.half, Scalar.ofNat y + Scalar.half⟩ < distance then
        some ⟨x, y⟩
      else none

/-- The cells that a segment marks in a mask over the box `window`. -/
def Segment.strokeCells (core : Box α) (distance : α) (window : Box α) (s : Segment α) :
    List Cell :=
  if s.isFinite then
    (s.clip core).elim [] Segment.cells ++
      ((s.box.inflate distance).meet window).elim [] (s.nearCells distance)
  else []

theorem Segment.mem_nearCells {s : Segment α} {distance : α} {area : Box α} {x y : ℕ} :
    ⟨x, y⟩ ∈ s.nearCells distance area ↔
      ((Scalar.floor area.low.x).toNat ≤ x ∧ x < (Scalar.ceil area.high.x).toNat) ∧
        ((Scalar.floor area.low.y).toNat ≤ y ∧ y < (Scalar.ceil area.high.y).toNat) ∧
        s.distance ⟨Scalar.ofNat x + Scalar.half, Scalar.ofNat y + Scalar.half⟩ < distance := by
  simp only [nearCells, List.mem_flatMap, List.mem_filterMap, List.mem_range'_1,
    Option.ite_none_right_eq_some, Option.some.injEq, Cell.mk.injEq, Int.natCast_inj]
  constructor
  · rintro ⟨y, row, x, col, near, rfl, rfl⟩
    exact ⟨by omega, by omega, near⟩
  · rintro ⟨col, row, near⟩
    exact ⟨y, by omega, x, by omega, near, rfl, rfl⟩

theorem Mask.markNear_eq (mask : Mask) (s : Segment α) (distance : α) :
    mask.markNear s distance =
      (((s.box.inflate distance).meet mask.box).elim [] (s.nearCells distance)).foldl mark
        mask := by
  unfold markNear
  split
  · rename_i apart
    rw [apart]
    rfl
  · rename_i area met
    rw [met]
    simp only [Option.elim_some, Segment.nearCells, List.foldl_flatMap, List.foldl_filterMap]
    congr 1
    funext mask y
    congr 1
    funext mask x
    split <;> rfl

namespace Stroke

variable {core : Box α} {distance : α}

theorem markSegment_eq (mask : Mask) (s : Segment α) :
    markSegment core distance mask s =
      (s.strokeCells core distance mask.box).foldl Mask.mark mask := by
  unfold markSegment Segment.strokeCells
  split
  · rw [List.foldl_append, ← Mask.box_foldl_mark mask ((s.clip core).elim [] Segment.cells),
      ← Mask.markNear_eq]
    cases s.clip core <;> rfl
  · rfl

theorem foldl_markSegment_eq (mask : Mask) (segments : List (Segment α)) :
    segments.foldl (markSegment core distance) mask =
      (segments.flatMap (·.strokeCells core distance mask.box)).foldl Mask.mark mask := by
  induction segments generalizing mask with
  | nil => rfl
  | cons s rest ih =>
    rw [List.foldl_cons, ih, markSegment_eq, Mask.box_foldl_mark, List.flatMap_cons,
      List.foldl_append]

end Stroke

end Marking
end VectorPaint
