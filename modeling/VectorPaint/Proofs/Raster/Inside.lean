import Mathlib
import VectorPaint.Proofs.Raster.Balance
import VectorPaint.Proofs.Raster.Paint
import VectorPaint.Proofs.Raster.Rows

/-!
Filling paints the inside. Whether a point is inside an outline is told by the segments around its
area that pass the point on the left: by their number, or by how many of them go down and how many
go up. In exact arithmetic, filling an outline paints exactly the pixels whose centers are inside,
each of them once. No crossing is missing at any height, since the segments around the area lead
back to where they began.
-/
namespace VectorPaint

namespace Segment

/-- The segment begins at the height `y` or above it and ends below it, in one direction or the
other. Level segments pass no height. -/
def Passes (s : Segment ℝ) (y : ℝ) : Prop :=
  s.start.y ≠ s.stop.y ∧ min s.start.y s.stop.y ≤ y ∧ y < max s.start.y s.stop.y

/-- Where the line through the segment is at the height `y`. -/
noncomputable def positionAt (s : Segment ℝ) (y : ℝ) : ℝ :=
  s.start.x + (y - s.start.y) * ((s.stop.x - s.start.x) / (s.stop.y - s.start.y))

/-- The segment passes the height of a point at the point or left of it. -/
def PassesLeftOf (s : Segment ℝ) (c : Point ℝ) : Prop :=
  s.Passes c.y ∧ s.positionAt c.y ≤ c.x

/-- One for a segment that goes down, and minus one for one that goes up. -/
noncomputable def winding (s : Segment ℝ) : ℤ := if s.start.y < s.stop.y then 1 else -1

noncomputable instance (s : Segment ℝ) (y : ℝ) : Decidable (s.Passes y) :=
  inferInstanceAs (Decidable (_ ∧ _ ∧ _))

noncomputable instance (s : Segment ℝ) (c : Point ℝ) : Decidable (s.PassesLeftOf c) :=
  inferInstanceAs (Decidable (_ ∧ _))

end Segment

namespace Outline

/-- The segments around the area that pass a point on its left. -/
noncomputable def passedLeft (o : Outline ℝ) (c : Point ℝ) : List (Segment ℝ) :=
  o.border.filter fun s => s.PassesLeftOf c

/-- The point is inside: an odd number of segments passes it on its left, or more of them in the
one direction than in the other. -/
def Inside (o : Outline ℝ) (rule : FillRule) (c : Point ℝ) : Prop :=
  match rule with
  | .evenOdd => Odd (o.passedLeft c).length
  | .nonZero => ((o.passedLeft c).map Segment.winding).sum ≠ 0

noncomputable instance (o : Outline ℝ) (rule : FillRule) (c : Point ℝ) :
    Decidable (o.Inside rule c) :=
  match rule with
  | .evenOdd => inferInstanceAs (Decidable (Odd _))
  | .nonZero => inferInstanceAs (Decidable (_ ≠ (0 : ℤ)))

end Outline

namespace Fill

/-- An edge crosses a height where its segment passes it, with the winding of the segment. -/
theorem crossing_ofSegment (s : Segment ℝ) (y : ℝ) :
    (Edge.ofSegment? s).bind (·.crossing? y) =
      if s.Passes y then some ⟨s.positionAt y, s.winding⟩ else none := by
  have finite : s.isFinite = true := rfl
  have level : (s.start.y == s.stop.y) = decide (s.start.y = s.stop.y) := rfl
  simp only [Edge.ofSegment?, finite, level, Bool.not_true, Bool.false_or, decide_eq_true_eq]
  rcases lt_trichotomy s.start.y s.stop.y with down | same | up
  · have different := ne_of_lt down
    simp only [if_pos down, Edge.crossing?, Segment.Passes, different,
      min_eq_left down.le, max_eq_right down.le, ne_eq, not_false_eq_true, true_and,
      Segment.winding]
    rfl
  · simp [same, Segment.Passes]
  · have different := ne_of_gt up
    have turned : s.stop.x + (y - s.stop.y) * ((s.start.x - s.stop.x) / (s.start.y - s.stop.y)) =
        s.positionAt y := by
      have below : s.start.y - s.stop.y ≠ 0 := sub_ne_zero.mpr different
      have above : s.stop.y - s.start.y ≠ 0 := sub_ne_zero.mpr different.symm
      unfold Segment.positionAt
      field_simp
      ring
    simp only [if_neg (not_lt.mpr up.le), Edge.crossing?, Segment.Passes, different,
      min_eq_right up.le, max_eq_left up.le, ne_eq, not_false_eq_true, true_and,
      Segment.winding, ← turned]
    rfl

/-- The crossing that a passing segment makes. -/
noncomputable def crossingOf (y : ℝ) (s : Segment ℝ) : Crossing ℝ := ⟨s.positionAt y, s.winding⟩

theorem crossings_perm (o : Outline ℝ) (y : ℝ) :
    (crossings (edges o) y).Perm ((o.border.filter (·.Passes y)).map (crossingOf y)) := by
  refine (List.mergeSort_perm _ _).trans (List.Perm.of_eq ?_)
  rw [edges, List.filterMap_filterMap]
  simp only [crossing_ofSegment]
  induction o.border with
  | nil => rfl
  | cons s rest ih =>
    by_cases passes : s.Passes y
    · simp [passes, ih, crossingOf]
    · simp [passes, ih]

theorem crossings_ordered (edges : List (Edge ℝ)) (y : ℝ) : Ordered (crossings edges y) := by
  have sorted : (crossings edges y).Pairwise fun a b => Scalar.precedes a.x b.x = true := by
    apply List.pairwise_mergeSort
    · intro a b c
      simpa only [Scalar.exact_precedes] using le_trans
    · intro a b
      simpa only [Bool.or_eq_true, Scalar.exact_precedes] using le_total a.x b.x
  exact sorted.imp fun before => (Scalar.exact_precedes ..).mp before

/-- Up to a position there are the crossings of the segments that pass it on the left. -/
theorem upTo_crossings_perm (o : Outline ℝ) (c : Point ℝ) :
    (upTo c.x (crossings (edges o) c.y)).Perm ((o.passedLeft c).map (crossingOf c.y)) := by
  refine ((crossings_perm o c.y).filter _).trans (List.Perm.of_eq ?_)
  rw [List.filter_map, List.filter_filter]
  unfold Outline.passedLeft
  congr 2
  funext s
  apply Bool.eq_iff_iff.mpr
  simp only [Function.comp_apply, Bool.and_eq_true, decide_eq_true_eq]
  exact and_comm

theorem turns_map_crossingOf (y : ℝ) (segments : List (Segment ℝ)) :
    turns (segments.map (crossingOf y)) = (segments.map Segment.winding).sum := by
  simp [turns, crossingOf, Function.comp_def]

/-- A segment that passes a height gets below it in the direction of its winding, and any other one
ends on the side where it begins. -/
theorem winding_eq_gain (s : Segment ℝ) (y : ℝ) :
    (if s.Passes y then s.winding else 0) =
      (if y < s.stop.y then 1 else 0) - (if y < s.start.y then 1 else 0) := by
  simp only [Segment.Passes, Segment.winding, min_le_iff, lt_max_iff]
  grind

/-- No crossing of a row lacks a partner. -/
theorem turns_crossings_of_linked {o : Outline ℝ} (linked : o.Linked) (y : ℝ) :
    turns (crossings (edges o) y) = 0 := by
  refine turns_crossings_eq_zero linked (fun p => if y < p.y then 1 else 0) fun s _ => ?_
  rw [windingAt, crossing_ofSegment, ← winding_eq_gain s y]
  split <;> rfl

/-- Of the spans of a row one holds a point if the point is inside, and otherwise none does. -/
theorem countP_spans {o : Outline ℝ} (linked : o.Linked) (rule : FillRule) (c : Point ℝ) :
    (spans rule (crossings (edges o) c.y)).countP (spanHolds c.x) =
      if o.Inside rule c then 1 else 0 := by
  have ordered := crossings_ordered (edges o) c.y
  have passed := upTo_crossings_perm o c
  have closed := turns_crossings_of_linked linked c.y
  cases rule with
  | evenOdd =>
    have even : Even (crossings (edges o) c.y).length :=
      even_length_of_turns (fun _ member => single_of_mem_crossings member) closed
    have number := passed.length_eq
    rw [List.length_map] at number
    simp only [spans, countP_evenOddSpans ordered even, number]
    exact if_congr Iff.rfl rfl rfl
  | nonZero =>
    have sum : turns (upTo c.x (crossings (edges o) c.y)) =
        ((o.passedLeft c).map Segment.winding).sum :=
      (passed.map Crossing.winding).sum_eq.trans (turns_map_crossingOf ..)
    have count := @countP_windingSpans ℝ _ c.x _ 0 (Scalar.ofNat 0) ordered (absurd rfl)
      (by rw [closed, add_zero])
    simp only [spans, count, zero_add, sum]
    refine if_congr ?_ rfl rfl
    simp only [ne_eq, not_true_eq_false, false_implies, and_true, Outline.Inside]

end Fill

/-- In exact arithmetic a drawn outline is filled by painting each pixel once whose center is
inside, and leaving every other pixel as it was. The coordinates may be those of any arithmetic
that the outline was drawn in, read as real numbers. -/
theorem Canvas.fill_paints_inside {α : Type} [Scalar α] {o : Outline α} (drawn : o.Drawn)
    (read : α → ℝ) (rule : FillRule) (color : Rgba) (visible : color.isTransparent = false)
    (canvas : Canvas) (row col : ℕ) (rowInside : row < canvas.height)
    (colInside : col < canvas.width) :
    (Fill.runs (o.map read) rule canvas.width canvas.height).countP (·.contains row col) =
        (if (o.map read).Inside rule ⟨col + 1 / 2, row + 1 / 2⟩ then 1 else 0) ∧
      (canvas.fill (o.map read) rule color).pixel? col row =
        if (o.map read).Inside rule ⟨col + 1 / 2, row + 1 / 2⟩ then
          (canvas.pixel? col row).map (·.paintedWith color)
        else canvas.pixel? col row := by
  have count : (Fill.runs (o.map read) rule canvas.width canvas.height).countP
      (·.contains row col) =
        if (o.map read).Inside rule ⟨col + 1 / 2, row + 1 / 2⟩ then 1 else 0 := by
    rw [Fill.countP_runs _ _ rowInside colInside]
    exact Fill.countP_spans (drawn.linked.map read) rule ⟨col + 1 / 2, row + 1 / 2⟩
  refine ⟨count, ?_⟩
  rw [fill, visible, if_neg Bool.false_ne_true, pixel?_paintRuns, count]
  split
  · rfl
  · exact Option.map_id_apply

/-- Half of a square, drawn without its left side. -/
noncomputable def halfSquare : Outline ℝ :=
  ⟨#[⟨⟨0, 0⟩, #[⟨⟨0, 0⟩, ⟨10, 0⟩⟩, ⟨⟨10, 0⟩, ⟨0, 10⟩⟩], false⟩]⟩

theorem border_halfSquare : (halfSquare.map id).border =
    [⟨⟨0, 0⟩, ⟨10, 0⟩⟩, ⟨⟨10, 0⟩, ⟨0, 10⟩⟩, ⟨⟨0, 10⟩, ⟨0, 0⟩⟩] := by
  simp [halfSquare, Outline.map, Outline.border, Chain.map, Chain.border, Chain.isEmpty,
    Chain.stop, Segment.map, Point.map]

/-- The long side of the half square goes through the center of the second pixel, which is then not
inside. -/
theorem Canvas.fill_halfSquare :
    halfSquare.Drawn ∧
      ((blank 10 10 .white).fill (halfSquare.map id) .evenOdd .black).pixel? 4 4 = some .black ∧
      ((blank 10 10 .white).fill (halfSquare.map id) .evenOdd .black).pixel? 5 4 = some .white := by
  have drawn : halfSquare.Drawn :=
    .byPen 24 [.moveTo ⟨0, 0⟩, .lineTo ⟨10, 0⟩, .lineTo ⟨0, 10⟩, .build]
      (List.mem_singleton.mpr rfl)
  have inner := (fill_paints_inside drawn id .evenOdd .black rfl (blank 10 10 .white) 4 4
    (by decide) (by decide)).2
  have outer := (fill_paints_inside drawn id .evenOdd .black rfl (blank 10 10 .white) 4 5
    (by decide) (by decide)).2
  rw [if_pos] at inner
  · rw [if_neg] at outer
    · exact ⟨drawn, inner.trans rfl, outer.trans rfl⟩
    · simp only [Outline.Inside, Outline.passedLeft, border_halfSquare, List.filter_cons,
        Segment.PassesLeftOf, Segment.Passes, Segment.positionAt]
      norm_num
  · simp only [Outline.Inside, Outline.passedLeft, border_halfSquare, List.filter_cons,
      Segment.PassesLeftOf, Segment.Passes, Segment.positionAt]
    norm_num

end VectorPaint
