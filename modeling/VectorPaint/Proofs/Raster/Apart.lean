import VectorPaint.Proofs.Raster.Mask
import VectorPaint.Proofs.Raster.Rows
import VectorPaint.Proofs.Scalar.Binary64

/-!
No pixel of a layer is painted twice, whatever has been lost to rounding. The crossings of a row
are sorted, so a span ends where the next one begins or before, and the runs of pixels made from
spans keep that order. The marks of a stroke are each painted once.
-/
namespace VectorPaint

/-- Runs of one row, of which each ends before the next one begins, do not share a pixel. -/
theorem countP_le_one_of_apart {runs : List Run}
    (apart : runs.Pairwise fun a b => a.stop ≤ b.start) (row col : ℕ) :
    runs.countP (·.contains row col) ≤ 1 := by
  induction runs with
  | nil => exact Nat.zero_le _
  | cons run rest ih =>
    obtain ⟨first, restApart⟩ := List.pairwise_cons.mp apart
    rw [List.countP_cons]
    split
    · rename_i holds
      have others : rest.countP (·.contains row col) = 0 := by
        apply List.countP_eq_zero.mpr
        intro other member
        have := first other member
        simp only [Run.contains, Bool.and_eq_true, decide_eq_true_eq] at holds ⊢
        omega
      omega
    · exact ih restApart

namespace Fill

section Spans

variable {α : Type} {before : α → α → Prop} {crossings : List (Crossing α)} {span : α × α}

theorem start_of_mem_evenOddSpans (member : span ∈ evenOddSpans crossings) :
    ∃ crossing ∈ crossings, span.1 = crossing.x := by
  induction crossings using evenOddSpans.induct with
  | case1 enter leave rest ih =>
    rcases List.mem_cons.mp member with rfl | later
    · exact ⟨enter, List.mem_cons_self, rfl⟩
    · obtain ⟨crossing, among, same⟩ := ih later
      exact ⟨crossing, List.mem_cons_of_mem _ (List.mem_cons_of_mem _ among), same⟩
  | case2 crossings short =>
    rw [evenOddSpans] at member
    · cases member
    · exact short

/-- A span begins at a crossing, if it was not begun before. -/
theorem start_of_mem_windingSpans {winding : ℤ} {start : α}
    (member : span ∈ windingSpans winding start crossings) :
    winding ≠ 0 ∧ span.1 = start ∨ ∃ crossing ∈ crossings, span.1 = crossing.x := by
  induction crossings generalizing winding start with
  | nil => cases member
  | cons crossing rest ih =>
    have later (found : ∃ crossing ∈ rest, span.1 = crossing.x) :
        winding ≠ 0 ∧ span.1 = start ∨ ∃ other ∈ crossing :: rest, span.1 = other.x := by
      obtain ⟨other, among, same⟩ := found
      exact .inr ⟨other, List.mem_cons_of_mem _ among, same⟩
    simp only [windingSpans] at member
    split at member
    · rcases ih member with ⟨-, same⟩ | found
      · exact .inr ⟨crossing, List.mem_cons_self, same⟩
      · exact later found
    · rename_i stays
      split at member
      · rename_i leaves
        rcases List.mem_cons.mp member with rfl | member
        · exact .inl ⟨leaves.1, rfl⟩
        · rcases ih member with ⟨inside, -⟩ | found
          · exact absurd leaves.2 inside
          · exact later found
      · -- Outside of all spans the start is not used before the next one begins.
        rcases ih member with ⟨inside, same⟩ | found
        · exact .inl ⟨fun outside => stays ⟨outside, inside⟩, same⟩
        · exact later found

theorem evenOddSpans_apart (sorted : crossings.Pairwise fun a b => before a.x b.x) :
    (evenOddSpans crossings).Pairwise fun a b => before a.2 b.1 := by
  induction crossings using evenOddSpans.induct with
  | case1 enter leave rest ih =>
    obtain ⟨-, sorted⟩ := List.pairwise_cons.mp sorted
    obtain ⟨leaveFirst, restSorted⟩ := List.pairwise_cons.mp sorted
    refine List.pairwise_cons.mpr ⟨fun span member => ?_, ih restSorted⟩
    obtain ⟨crossing, later, same⟩ := start_of_mem_evenOddSpans member
    rw [same]
    exact leaveFirst crossing later
  | case2 crossings short =>
    rw [evenOddSpans]
    · exact List.Pairwise.nil
    · exact short

theorem windingSpans_apart (winding : ℤ) (start : α)
    (sorted : crossings.Pairwise fun a b => before a.x b.x) :
    (windingSpans winding start crossings).Pairwise fun a b => before a.2 b.1 := by
  induction crossings generalizing winding start with
  | nil => exact List.Pairwise.nil
  | cons crossing rest ih =>
    obtain ⟨first, restSorted⟩ := List.pairwise_cons.mp sorted
    simp only [windingSpans]
    split
    · exact ih _ _ restSorted
    · split
      · rename_i leaves
        refine List.pairwise_cons.mpr ⟨fun span member => ?_, ih _ _ restSorted⟩
        obtain ⟨inside, -⟩ | ⟨other, later, same⟩ := start_of_mem_windingSpans member
        · exact absurd leaves.2 inside
        · rw [same]
          exact first other later
      · exact ih _ _ restSorted

/-- Spans of sorted crossings do not overlap, by either rule. -/
theorem spans_apart [Scalar α] (before : α → α → Prop) (rule : FillRule)
    (sorted : crossings.Pairwise fun a b => before a.x b.x) :
    (spans rule crossings).Pairwise fun a b => before a.2 b.1 := by
  cases rule with
  | evenOdd => exact evenOddSpans_apart sorted
  | nonZero => exact windingSpans_apart 0 _ sorted

end Spans

theorem crossings_sorted (edges : List (Edge Float)) (y : Float) :
    (crossings edges y).Pairwise fun a b => Scalar.precedes a.x b.x = true := by
  unfold crossings
  refine List.pairwise_mergeSort ?_ ?_ _
  · exact fun a b c => Binary64.precedes_trans a.x b.x c.x
  · exact fun a b => Binary64.precedes_total a.x b.x

theorem rowRuns_apart (edges : List (Edge Float)) (rule : FillRule) (width row : ℕ) :
    (rowRuns edges rule width row).Pairwise fun a b => a.stop ≤ b.start := by
  unfold rowRuns
  have apart := spans_apart (fun a b => Scalar.precedes a b = true) rule
    (crossings_sorted edges (Scalar.ofNat row + Scalar.half))
  exact List.pairwise_map.mpr (apart.imp fun sorted => Binary64.pixelFrom_mono sorted width)

/-- The inside of an outline is painted once. -/
theorem countP_runs_le_one (o : Outline Float) (rule : FillRule) (width height row col : ℕ) :
    (runs o rule width height).countP (·.contains row col) ≤ 1 := by
  have once := countP_le_one_of_apart (rowRuns_apart (edges o) rule width row) row col
  unfold runs
  simp only [countP_flatMap_rowRuns, List.count_range_1']
  split <;> omega

end Fill

namespace Stroke

/-- The pixels of a stroke are painted once. -/
theorem countP_runs_le_one {α : Type} [Scalar α] (o : Outline α) (strokeWidth : α)
    (width height row col : ℕ) :
    (runs o strokeWidth width height).countP (·.contains row col) ≤ 1 := by
  unfold runs
  split
  · split
    · exact Nat.zero_le _
    · rw [Mask.countP_runs]
      split <;> omega
  · exact Nat.zero_le _

end Stroke
end VectorPaint
