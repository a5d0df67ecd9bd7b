import Mathlib
import VectorPaint.Plane.Basic
import VectorPaint.Proofs.Scalar.Exact

/-!
Boxes and segments in exact arithmetic. The common part of two boxes has the larger of the low sides
and the smaller of the high ones. The distance from a segment is that from one of its points, and
clipping keeps a part of the segment, so none of the two leads out of the box of the segment.
-/
namespace VectorPaint

theorem Point.exact_sub (p q : Point ℝ) : p - q = ⟨p.x - q.x, p.y - q.y⟩ := rfl

theorem Point.exact_add (p q : Point ℝ) : p + q = ⟨p.x + q.x, p.y + q.y⟩ := rfl

theorem Point.exact_distance (p q : Point ℝ) :
    p.distance q = √((p.x - q.x) ^ 2 + (p.y - q.y) ^ 2) := rfl

namespace Box

/-- The sides are in order. -/
structure Ordered (b : Box ℝ) : Prop where
  x : b.low.x ≤ b.high.x
  y : b.low.y ≤ b.high.y

theorem exact_ofCorners (p q : Point ℝ) :
    ofCorners p q = ⟨⟨min p.x q.x, min p.y q.y⟩, ⟨max p.x q.x, max p.y q.y⟩⟩ := by
  unfold ofCorners
  rcases le_total p.x q.x with x | x <;> rcases le_total p.y q.y with y | y <;>
    simp [x, y] <;> grind

theorem ordered_ofCorners (p q : Point ℝ) : (ofCorners p q).Ordered := by
  rw [exact_ofCorners]
  exact ⟨min_le_max, min_le_max⟩

theorem exact_ofCells (col row width height : ℕ) :
    (ofCells col row width height : Box ℝ) = ⟨⟨col, row⟩, ⟨col + width, row + height⟩⟩ := by
  unfold ofCells
  rw [exact_ofCorners]
  change Box.mk ⟨min (col : ℝ) ((col + width : ℕ) : ℝ), min (row : ℝ) ((row + height : ℕ) : ℝ)⟩
    ⟨max (col : ℝ) ((col + width : ℕ) : ℝ), max (row : ℝ) ((row + height : ℕ) : ℝ)⟩ = _
  push_cast
  simp

theorem exact_inflate (b : Box ℝ) (margin : ℝ) :
    b.inflate margin =
      ⟨⟨b.low.x - margin, b.low.y - margin⟩, ⟨b.high.x + margin, b.high.y + margin⟩⟩ := rfl

theorem exact_extend (b : Box ℝ) (p : Point ℝ) :
    b.extend p = ⟨⟨min b.low.x p.x, min b.low.y p.y⟩, ⟨max b.high.x p.x, max b.high.y p.y⟩⟩ := by
  simp only [extend, Scalar.exact_least, Scalar.exact_greatest]

theorem exact_meetRanges (low₀ high₀ low₁ high₁ : ℝ) :
    meetRanges low₀ high₀ low₁ high₁ =
      if low₀ ≤ high₁ ∧ low₁ ≤ high₀ then some (max low₀ low₁, min high₀ high₁) else none := by
  unfold meetRanges
  rw [Scalar.exact_greatest, Scalar.exact_least]
  change (if high₁ < low₀ then none else if high₀ < low₁ then none else _) = _
  simp only [← not_le]
  grind

/-- Boxes meet if their sides do, along both axes. -/
theorem exact_meet {a b : Box ℝ} (first : a.Ordered) (second : b.Ordered) :
    a.meet b =
      if (a.low.x ≤ b.high.x ∧ b.low.x ≤ a.high.x) ∧ a.low.y ≤ b.high.y ∧ b.low.y ≤ a.high.y then
        some ⟨⟨max a.low.x b.low.x, max a.low.y b.low.y⟩,
          ⟨min a.high.x b.high.x, min a.high.y b.high.y⟩⟩
      else none := by
  unfold meet
  simp only [exact_meetRanges, exact_ofCorners]
  by_cases x : a.low.x ≤ b.high.x ∧ b.low.x ≤ a.high.x
  · by_cases y : a.low.y ≤ b.high.y ∧ b.low.y ≤ a.high.y
    · have ordered_x : max a.low.x b.low.x ≤ min a.high.x b.high.x :=
        max_le (le_min first.x x.1) (le_min x.2 second.x)
      have ordered_y : max a.low.y b.low.y ≤ min a.high.y b.high.y :=
        max_le (le_min first.y y.1) (le_min y.2 second.y)
      simp [x, y, min_eq_left ordered_x, min_eq_left ordered_y, max_eq_right ordered_x,
        max_eq_right ordered_y]
    · simp [x, y]
  · simp [x]

theorem ordered_meet {a b c : Box ℝ} (met : a.meet b = some c) : c.Ordered := by
  unfold meet at met
  simp only [bind, Option.bind_eq_some_iff, pure, Option.some.injEq] at met
  obtain ⟨-, -, -, -, rfl⟩ := met
  exact ordered_ofCorners ..

/-- No side of the first box lies outside of the second one. -/
structure Within (a b : Box ℝ) : Prop where
  left : b.low.x ≤ a.low.x
  right : a.high.x ≤ b.high.x
  upper : b.low.y ≤ a.low.y
  lower : a.high.y ≤ b.high.y

theorem Within.refl (a : Box ℝ) : a.Within a := ⟨le_rfl, le_rfl, le_rfl, le_rfl⟩

theorem Within.trans {a b c : Box ℝ} (first : a.Within b) (second : b.Within c) : a.Within c :=
  ⟨second.left.trans first.left, first.right.trans second.right, second.upper.trans first.upper,
    first.lower.trans second.lower⟩

theorem Within.ordered {a b : Box ℝ} (within : a.Within b) (ordered : a.Ordered) : b.Ordered :=
  ⟨within.left.trans (ordered.x.trans within.right),
    within.upper.trans (ordered.y.trans within.lower)⟩

theorem Within.inflate {a b : Box ℝ} (within : a.Within b) (margin : ℝ) :
    (a.inflate margin).Within (b.inflate margin) := by
  simp only [exact_inflate]
  exact ⟨sub_le_sub_right within.left _, add_le_add_left within.right _,
    sub_le_sub_right within.upper _, add_le_add_left within.lower _⟩

theorem Ordered.inflate {b : Box ℝ} {margin : ℝ} (ordered : b.Ordered) (positive : 0 < margin) :
    (b.inflate margin).Ordered := by
  rw [exact_inflate]
  constructor
  · exact (sub_lt_self _ positive).le.trans (ordered.x.trans (lt_add_of_pos_right _ positive).le)
  · exact (sub_lt_self _ positive).le.trans (ordered.y.trans (lt_add_of_pos_right _ positive).le)

theorem ordered_ofCells (col row width height : ℕ) :
    (ofCells col row width height : Box ℝ).Ordered :=
  ordered_ofCorners ..

/-- The common part of two boxes lies in both. -/
theorem within_of_meet {a b c : Box ℝ} (first : a.Ordered) (second : b.Ordered)
    (met : a.meet b = some c) : c.Within a ∧ c.Within b := by
  rw [exact_meet first second, Option.ite_none_right_eq_some, Option.some.injEq] at met
  obtain ⟨-, rfl⟩ := met
  exact ⟨⟨le_max_left .., min_le_left .., le_max_left .., min_le_left ..⟩,
    ⟨le_max_right .., min_le_right .., le_max_right .., min_le_right ..⟩⟩

end Box

/-- The point of a segment that divides it in the ratio `t : 1 - t`. -/
def Segment.at (s : Segment ℝ) (t : ℝ) : Point ℝ :=
  ⟨s.start.x + t * (s.stop.x - s.start.x), s.start.y + t * (s.stop.y - s.start.y)⟩

/-- A part of a whole. -/
def Part (t : ℝ) : Prop := 0 ≤ t ∧ t ≤ 1

namespace Segment

variable {s : Segment ℝ} {t : ℝ}

theorem exact_box (s : Segment ℝ) :
    s.box = ⟨⟨min s.start.x s.stop.x, min s.start.y s.stop.y⟩,
      ⟨max s.start.x s.stop.x, max s.start.y s.stop.y⟩⟩ :=
  Box.exact_ofCorners ..

theorem between_of_part {a b : ℝ} (part : Part t) :
    min a b ≤ a + t * (b - a) ∧ a + t * (b - a) ≤ max a b := by
  obtain ⟨low, high⟩ := part
  rcases le_total a b with order | order
  · rw [min_eq_left order, max_eq_right order]
    constructor <;> nlinarith
  · rw [min_eq_right order, max_eq_left order]
    constructor <;> nlinarith

/-- The square of the length. -/
def squared (s : Segment ℝ) : ℝ :=
  (s.stop.x - s.start.x) ^ 2 + (s.stop.y - s.start.y) ^ 2

/-- All parameters of a segment with equal ends tell the same point. -/
theorem at_of_squared (equal : s.squared = 0) (t : ℝ) : s.at t = s.start := by
  obtain ⟨x, y⟩ := (add_eq_zero_iff_of_nonneg (sq_nonneg _) (sq_nonneg _)).mp equal
  rw [Segment.at, pow_eq_zero_iff two_ne_zero |>.mp x, pow_eq_zero_iff two_ne_zero |>.mp y,
    mul_zero, add_zero, add_zero]

/-- The parameter of the foot of the perpendicular from a point, on the line through both ends. -/
noncomputable def foot (s : Segment ℝ) (p : Point ℝ) : ℝ :=
  ((p.x - s.start.x) * (s.stop.x - s.start.x) + (p.y - s.start.y) * (s.stop.y - s.start.y)) /
    s.squared

/-- The part of the whole that is nearest to a number. -/
noncomputable def nearestPart (t : ℝ) : ℝ := max 0 (min t 1)

theorem part_nearestPart (t : ℝ) : Part (nearestPart t) :=
  ⟨le_max_left .., max_le zero_le_one (min_le_right ..)⟩

theorem exact_clamp (t : ℝ) :
    Scalar.clamp t (Scalar.ofNat 0) (Scalar.ofNat 1) = nearestPart t := by
  unfold Scalar.clamp nearestPart
  rw [Scalar.exact_ofNat, Scalar.exact_ofNat, Nat.cast_zero, Nat.cast_one]
  split
  · rename_i before
    rw [min_eq_left (before.le.trans zero_le_one), max_eq_left before.le]
  · rename_i after
    split
    · rename_i beyond
      rw [min_eq_right beyond.le, max_eq_right zero_le_one]
    · rename_i within
      rw [min_eq_left (not_lt.mp within), max_eq_right (not_lt.mp after)]

/-- The distance from a segment is that from the point of it that is nearest to the foot. -/
theorem distance_eq (s : Segment ℝ) (p : Point ℝ) :
    s.distance p = p.distance (s.at (nearestPart (s.foot p))) := by
  have squares : s.direction.dot s.direction = s.squared := by
    change (s.stop.x - s.start.x) * (s.stop.x - s.start.x) +
      (s.stop.y - s.start.y) * (s.stop.y - s.start.y) = _
    rw [squared, sq, sq]
  unfold distance
  simp only [exact_clamp, squares]
  split
  · rename_i equal
    rw [at_of_squared (beq_iff_eq.mp equal |>.trans Nat.cast_zero)]
  · rfl

/-- A point closer than `d` to the segment is closer than `d` to its box, along both axes. -/
theorem near_box_of_distance_lt {p : Point ℝ} {d : ℝ} (near : s.distance p < d) :
    (s.box.low.x - d < p.x ∧ p.x < s.box.high.x + d) ∧
      s.box.low.y - d < p.y ∧ p.y < s.box.high.y + d := by
  have part : Part (nearestPart (s.foot p)) := part_nearestPart _
  rw [distance_eq, Point.exact_distance] at near
  generalize nearestPart (s.foot p) = t at near part
  have x : |p.x - (s.at t).x| < d := lt_of_le_of_lt (Real.abs_le_sqrt (by nlinarith)) near
  have y : |p.y - (s.at t).y| < d := lt_of_le_of_lt (Real.abs_le_sqrt (by nlinarith)) near
  have between_x : min s.start.x s.stop.x ≤ (s.at t).x ∧ (s.at t).x ≤ max s.start.x s.stop.x :=
    between_of_part part
  have between_y : min s.start.y s.stop.y ≤ (s.at t).y ∧ (s.at t).y ≤ max s.start.y s.stop.y :=
    between_of_part part
  rw [abs_lt] at x y
  rw [exact_box]
  refine ⟨⟨?_, ?_⟩, ?_, ?_⟩ <;> simp only <;> linarith

theorem exact_cutRange (range : ℝ × ℝ) (speed room : ℝ) :
    cutRange range speed room =
      if |speed| < Scalar.epsilon then (if room < 0 then none else some range)
      else if speed < 0 then
        (if range.2 < room / speed then none else some (max range.1 (room / speed), range.2))
      else if room / speed < range.1 then none
      else some (range.1, min range.2 (room / speed)) := by
  unfold cutRange
  simp only [Scalar.exact_greatest, Scalar.exact_least, Scalar.exact_ofNat, Nat.cast_zero]
  rfl

/-- Cutting leaves a part of the range of parameters. -/
theorem part_of_cutRange {range range' : ℝ × ℝ} {speed room : ℝ}
    (parts : Part range.1 ∧ Part range.2) (cut : cutRange range speed room = some range') :
    Part range'.1 ∧ Part range'.2 := by
  obtain ⟨⟨low, _⟩, _, high⟩ := parts
  rw [exact_cutRange] at cut
  split at cut
  · split at cut
    · cases cut
    · cases cut
      constructor <;> constructor <;> assumption
  · split at cut
    · split at cut
      · cases cut
      · cases cut
        unfold Part
        grind
    · split at cut
      · cases cut
      · cases cut
        unfold Part
        grind

/-- Clipping keeps a part of the segment. -/
theorem exists_parts_of_clip {inner : Segment ℝ} {b : Box ℝ} (clipped : s.clip b = some inner) :
    ∃ t u, Part t ∧ Part u ∧ inner = ⟨s.at t, s.at u⟩ := by
  unfold clip at clipped
  simp only [bind, Option.bind_eq_some_iff, pure, Option.some.injEq] at clipped
  obtain ⟨left, cutLeft, right, cutRight, upper, cutUpper, lower, cutLower, rfl⟩ := clipped
  have whole : Part ((Scalar.ofNat 0, Scalar.ofNat 1) : ℝ × ℝ).1 ∧
      Part ((Scalar.ofNat 0, Scalar.ofNat 1) : ℝ × ℝ).2 := by
    change Part ((0 : ℕ) : ℝ) ∧ Part ((1 : ℕ) : ℝ)
    unfold Part
    norm_num
  have parts := part_of_cutRange (part_of_cutRange (part_of_cutRange
    (part_of_cutRange whole cutLeft) cutRight) cutUpper) cutLower
  exact ⟨lower.1, lower.2, parts.1, parts.2, rfl⟩

end Segment
end VectorPaint
