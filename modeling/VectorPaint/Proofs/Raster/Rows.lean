import Mathlib
import VectorPaint.Proofs.Scalar.Exact
import VectorPaint.Raster.Fill

/-!
From crossings to spans, and from spans to runs. The spans of crossings from left to right never
share a position, and one of them holds a position exactly if the crossings up to it say so: by
their number, or by the sum of their windings. Both rules need that no crossing is missing in the
end: the number of all of them has to be even, or the sum of all windings zero. In exact arithmetic
a run holds a pixel of its row exactly if its span holds the center of the pixel, and rows that are
left out because all edges lie above or below them have no crossings. So the runs that hold a pixel
are as many as the spans that hold its center.
-/
namespace VectorPaint.Fill

section Spans

variable {α : Type} [LinearOrder α] {c : α} {crossings : List (Crossing α)}

/-- A span holds its left end and not its right one. -/
def spanHolds (c : α) (span : α × α) : Bool := decide (span.1 ≤ c) && !decide (span.2 ≤ c)

/-- The crossings that do not lie beyond a position. -/
def upTo (c : α) (crossings : List (Crossing α)) : List (Crossing α) :=
  crossings.filter fun crossing => crossing.x ≤ c

/-- The sum of the windings of crossings. -/
def turns (crossings : List (Crossing α)) : Int := (crossings.map Crossing.winding).sum

/-- Crossings from left to right. -/
def Ordered (crossings : List (Crossing α)) : Prop := crossings.Pairwise fun a b => a.x ≤ b.x

private theorem upTo_cons_of_le {crossing : Crossing α} (reached : crossing.x ≤ c)
    (rest : List (Crossing α)) : upTo c (crossing :: rest) = crossing :: upTo c rest := by
  simp [upTo, reached]

private theorem upTo_cons_of_lt {crossing : Crossing α} (beyond : c < crossing.x)
    (ordered : Ordered (crossing :: crossings)) : upTo c (crossing :: crossings) = [] := by
  obtain ⟨first, -⟩ := List.pairwise_cons.mp ordered
  simp only [upTo, List.filter_eq_nil_iff, List.mem_cons, decide_eq_true_eq, not_le]
  rintro other (rfl | member)
  · exact beyond
  · exact lt_of_lt_of_le beyond (first other member)

private theorem upTo_tail_of_lt {crossing : Crossing α} (beyond : c < crossing.x)
    (ordered : Ordered (crossing :: crossings)) : upTo c crossings = [] := by
  have none := upTo_cons_of_lt beyond ordered
  simpa [upTo, not_le.mpr beyond] using none

omit [LinearOrder α] in
private theorem turns_cons (crossing : Crossing α) (rest : List (Crossing α)) :
    turns (crossing :: rest) = crossing.winding + turns rest := by
  simp [turns]

/-- Of the spans between pairs of crossings one holds a position if the number of crossings up to
it is odd, and otherwise none does. -/
theorem countP_evenOddSpans (ordered : Ordered crossings) (even : Even crossings.length) :
    (evenOddSpans crossings).countP (spanHolds c) =
      if Odd (upTo c crossings).length then 1 else 0 := by
  induction crossings using evenOddSpans.induct with
  | case1 enter leave rest ih =>
    obtain ⟨enterFirst, ordered⟩ := List.pairwise_cons.mp ordered
    obtain ⟨-, restOrdered⟩ := List.pairwise_cons.mp ordered
    have restEven : Even rest.length := by
      simpa [Nat.even_add_one] using even
    have between := enterFirst leave List.mem_cons_self
    rw [evenOddSpans, List.countP_cons, ih restOrdered restEven]
    by_cases left : leave.x ≤ c
    · have entered := le_trans between left
      rw [upTo_cons_of_le entered, upTo_cons_of_le left]
      simp [spanHolds, left, Nat.odd_add_one]
    · have beyond := not_le.mp left
      rw [upTo_tail_of_lt beyond ordered]
      by_cases entered : enter.x ≤ c
      · rw [upTo_cons_of_le entered, upTo_cons_of_lt beyond ordered]
        simp [spanHolds, left, entered]
      · have none := upTo_cons_of_lt (not_le.mp entered) (List.pairwise_cons.mpr
          ⟨enterFirst, ordered⟩)
        rw [none]
        simp [spanHolds, entered]
  | case2 crossings short =>
    match crossings with
    | [] => simp [evenOddSpans, upTo]
    | [_] => simp at even
    | enter :: leave :: rest => exact absurd rfl (short enter leave rest)

/-- Of the spans over which the windings do not add up to zero one holds a position if those up to
it do not, and otherwise none does. A span that was begun before holds nothing left of its start. -/
theorem countP_windingSpans {winding : Int} {start : α} (ordered : Ordered crossings)
    (begun : winding ≠ 0 → ∀ crossing ∈ crossings, start ≤ crossing.x)
    (closed : winding + turns crossings = 0) :
    (windingSpans winding start crossings).countP (spanHolds c) =
      if winding + turns (upTo c crossings) ≠ 0 ∧ (winding ≠ 0 → start ≤ c) then 1 else 0 := by
  induction crossings generalizing winding start with
  | nil =>
    have none : winding = 0 := by simpa [turns] using closed
    simp [windingSpans, upTo, turns, none]
  | cons crossing rest ih =>
    obtain ⟨first, restOrdered⟩ := List.pairwise_cons.mp ordered
    rw [turns_cons] at closed
    have restClosed : winding + crossing.winding + turns rest = 0 := by omega
    simp only [windingSpans]
    split
    · rename_i enters
      rw [ih restOrdered (fun _ => first) restClosed]
      by_cases reached : crossing.x ≤ c
      · rw [upTo_cons_of_le reached, turns_cons]
        simp [enters.1, reached]
      · have beyond := not_le.mp reached
        rw [upTo_cons_of_lt beyond ordered, upTo_tail_of_lt beyond ordered]
        simp [turns, enters.1, reached]
    · rename_i stays
      split
      · rename_i leaves
        rw [List.countP_cons, ih restOrdered (fun inside => absurd leaves.2 inside) restClosed]
        by_cases reached : crossing.x ≤ c
        · have started := le_trans (begun leaves.1 crossing List.mem_cons_self) reached
          rw [upTo_cons_of_le reached, turns_cons]
          simp [spanHolds, reached, leaves.2, started, ← Int.add_assoc]
        · have beyond := not_le.mp reached
          rw [upTo_cons_of_lt beyond ordered, upTo_tail_of_lt beyond ordered]
          simp [spanHolds, turns, reached, leaves]
      · have same : winding + crossing.winding = 0 ↔ winding = 0 := by omega
        rw [ih restOrdered (fun inside other member => begun (inside ∘ same.mpr) other
          (List.mem_cons_of_mem _ member)) restClosed]
        by_cases reached : crossing.x ≤ c
        · rw [upTo_cons_of_le reached, turns_cons]
          simp [same, Int.add_assoc]
        · have beyond := not_le.mp reached
          rw [upTo_cons_of_lt beyond ordered, upTo_tail_of_lt beyond ordered]
          simp [turns, same]

end Spans

variable {row col width height : ℕ}

section Rows

variable {α : Type} [Scalar α] {edges : List (Edge α)} {rule : FillRule}

theorem row_of_mem_rowRuns {run : Run} (member : run ∈ rowRuns edges rule width row) :
    run.row = row := by
  obtain ⟨span, -, rfl⟩ := List.mem_map.mp member
  rfl

/-- Only the runs of a row hold its pixels. -/
theorem countP_flatMap_rowRuns (edges : List (Edge α)) (rule : FillRule) (rows : List ℕ) :
    (rows.flatMap (rowRuns edges rule width)).countP (·.contains row col) =
      rows.count row * (rowRuns edges rule width row).countP (·.contains row col) := by
  induction rows with
  | nil => simp
  | cons first rest ih =>
    rw [List.flatMap_cons, List.countP_append, ih, List.count_cons, add_mul, add_comm]
    congr 1
    by_cases same : first = row
    · subst same
      simp
    · have elsewhere : (rowRuns edges rule width first).countP (·.contains row col) = 0 := by
        apply List.countP_eq_zero.mpr
        intro run member
        simp [Run.contains, row_of_mem_rowRuns member, same]
      simp [elsewhere, same]

end Rows

theorem row_center (row : ℕ) : (Scalar.ofNat row + Scalar.half : ℝ) = row + 1 / 2 := by
  rw [Scalar.exact_half]
  rfl

/-- Rounding the ends of a span to pixels and holding them on the canvas keeps what it holds. -/
theorem contains_run_iff (inside : col < width) (span : ℝ × ℝ) :
    Run.contains ⟨row, Scalar.pixelFrom span.1 width, Scalar.pixelFrom span.2 width⟩ row col =
      spanHolds (col + 1 / 2 : ℝ) span := by
  apply Bool.eq_iff_iff.mpr
  simp only [Run.contains, spanHolds, decide_true, Bool.true_and, Bool.and_eq_true,
    Bool.not_eq_true', decide_eq_true_eq, decide_eq_false_iff_not, ← not_le (b := col),
    Scalar.pixelFrom_le_iff inside]

theorem countP_rowRuns (edges : List (Edge ℝ)) (rule : FillRule) (inside : col < width) :
    (rowRuns edges rule width row).countP (·.contains row col) =
      (spans rule (crossings edges (row + 1 / 2))).countP (spanHolds (col + 1 / 2 : ℝ)) := by
  rw [rowRuns, List.countP_map, row_center row]
  refine List.countP_congr fun span _ => ?_
  rw [Function.comp_apply, contains_run_iff inside]

private theorem foldl_least_le (edges : List (Edge ℝ)) (y : ℝ) :
    edges.foldl (fun y e => Scalar.least y e.top) y ≤ y ∧
      ∀ e ∈ edges, edges.foldl (fun y e => Scalar.least y e.top) y ≤ e.top := by
  induction edges generalizing y with
  | nil => simp
  | cons e rest ih =>
    simp only [List.foldl_cons, List.mem_cons, Scalar.exact_least] at ih ⊢
    obtain ⟨first, others⟩ := ih (min y e.top)
    refine ⟨first.trans (min_le_left ..), ?_⟩
    rintro other (rfl | member)
    · exact first.trans (min_le_right ..)
    · exact others other member

private theorem le_foldl_greatest (edges : List (Edge ℝ)) (y : ℝ) :
    y ≤ edges.foldl (fun y e => Scalar.greatest y e.bottom) y ∧
      ∀ e ∈ edges, e.bottom ≤ edges.foldl (fun y e => Scalar.greatest y e.bottom) y := by
  induction edges generalizing y with
  | nil => simp
  | cons e rest ih =>
    simp only [List.foldl_cons, List.mem_cons, Scalar.exact_greatest] at ih ⊢
    obtain ⟨first, others⟩ := ih (max y e.bottom)
    refine ⟨(le_max_left ..).trans first, ?_⟩
    rintro other (rfl | member)
    · exact (le_max_right ..).trans first
    · exact others other member

/-- A row whose centers are crossed is among those that are filled. -/
theorem mem_rowRange {edges : List (Edge ℝ)} {e : Edge ℝ} (member : e ∈ edges)
    (inside : row < height) (begun : e.top ≤ row + 1 / 2) (unfinished : row + 1 / 2 < e.bottom) :
    (rowRange edges height).1 ≤ row ∧ row < (rowRange edges height).2 := by
  cases edges with
  | nil => cases member
  | cons f rest =>
    obtain ⟨least, leastRest⟩ := foldl_least_le rest f.top
    obtain ⟨greatest, greatestRest⟩ := le_foldl_greatest rest f.bottom
    simp only [rowRange, ← not_le, Scalar.pixelFrom_le_iff inside]
    rw [not_le]
    rcases List.mem_cons.mp member with rfl | later
    · exact ⟨least.trans begun, unfinished.trans_le greatest⟩
    · exact ⟨(leastRest e later).trans begun, unfinished.trans_le (greatestRest e later)⟩

theorem crossings_eq_nil {edges : List (Edge ℝ)} (inside : row < height)
    (outside : ¬ ((rowRange edges height).1 ≤ row ∧ row < (rowRange edges height).2)) :
    crossings edges (row + 1 / 2) = [] := by
  have none : edges.filterMap (·.crossing? (row + 1 / 2 : ℝ)) = [] := by
    apply List.filterMap_eq_nil_iff.mpr
    intro e member
    apply if_neg
    rintro ⟨begun, unfinished⟩
    exact outside (mem_rowRange member inside begun unfinished)
  rw [crossings, none, List.mergeSort_nil]

/-- The runs of an outline that hold a pixel are as many as the spans that hold its center. -/
theorem countP_runs (o : Outline ℝ) (rule : FillRule) (rowInside : row < height)
    (colInside : col < width) :
    (runs o rule width height).countP (·.contains row col) =
      (spans rule (crossings (edges o) (row + 1 / 2))).countP
        (spanHolds (col + 1 / 2 : ℝ)) := by
  unfold runs
  simp only [countP_flatMap_rowRuns, countP_rowRuns (edges o) rule colInside, List.count_range_1']
  split
  · rw [one_mul]
  · have outside :
        ¬ ((rowRange (edges o) height).1 ≤ row ∧ row < (rowRange (edges o) height).2) := by
      omega
    have none : crossings (edges o) (row + 1 / 2) = [] := crossings_eq_nil rowInside outside
    rw [none, zero_mul]
    cases rule <;> rfl

end VectorPaint.Fill
