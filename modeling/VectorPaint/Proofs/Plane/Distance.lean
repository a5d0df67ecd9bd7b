import Mathlib
import VectorPaint.Proofs.Plane.Clip

/-!
The distance from a segment. The points of a segment are told by their parameters, and the square of
the distance to them grows with the square of how far the parameter is from that of the foot of the
perpendicular. Of the parameters from zero to one the nearest to the foot is the foot held between
the two, so no point of the segment is nearer than the one the distance is taken to. In a segment
with equal ends all parameters tell the same point.
-/
namespace VectorPaint

namespace Point

variable {p q : Point ℝ}

theorem distance_nonneg (p q : Point ℝ) : 0 ≤ p.distance q := Real.sqrt_nonneg _

theorem distance_eq_zero_iff : p.distance q = 0 ↔ p = q := by
  rw [exact_distance, Real.sqrt_eq_zero (by positivity)]
  constructor
  · intro zero
    obtain ⟨x, y⟩ := (add_eq_zero_iff_of_nonneg (sq_nonneg _) (sq_nonneg _)).mp zero
    cases p
    cases q
    rw [mk.injEq]
    exact ⟨sub_eq_zero.mp (pow_eq_zero_iff two_ne_zero |>.mp x),
      sub_eq_zero.mp (pow_eq_zero_iff two_ne_zero |>.mp y)⟩
  · rintro rfl
    rw [sub_self, sub_self]
    norm_num

end Point

namespace Segment

variable {s : Segment ℝ} {p q : Point ℝ} {t u : ℝ}

/-- The segment from the other end. -/
def reversed (s : Segment ℝ) : Segment ℝ := ⟨s.stop, s.start⟩

theorem abs_nearestPart_sub_le (part : Part u) (t : ℝ) : |nearestPart t - t| ≤ |u - t| := by
  obtain ⟨low, high⟩ := part
  unfold nearestPart
  rcases le_total t 0 with before | after
  · rw [min_eq_left (before.trans zero_le_one), max_eq_left before, abs_of_nonneg (by linarith),
      abs_of_nonneg (by linarith)]
    linarith
  · rcases le_total t 1 with within | beyond
    · rw [min_eq_left within, max_eq_right after, sub_self, abs_zero]
      exact abs_nonneg _
    · rw [min_eq_right beyond, max_eq_right zero_le_one, abs_of_nonpos (by linarith),
        abs_of_nonpos (by linarith)]
      linarith

/-- The square of the distance to a point of the line, by how far it is from the foot. -/
theorem square_distance_at (s : Segment ℝ) (q : Point ℝ) (t : ℝ) :
    (q.x - (s.at t).x) ^ 2 + (q.y - (s.at t).y) ^ 2 =
      (q.x - (s.at (s.foot q)).x) ^ 2 + (q.y - (s.at (s.foot q)).y) ^ 2 +
        (t - s.foot q) ^ 2 * s.squared := by
  by_cases equal : s.squared = 0
  · rw [at_of_squared equal, at_of_squared equal, equal, mul_zero, add_zero]
  · -- The direction from the foot to the point is perpendicular to the segment.
    have perpendicular : s.foot q * s.squared = (q.x - s.start.x) * (s.stop.x - s.start.x) +
        (q.y - s.start.y) * (s.stop.y - s.start.y) := div_mul_cancel₀ _ equal
    simp only [Segment.at, squared] at perpendicular ⊢
    linear_combination (2 * (t - s.foot q)) * perpendicular

/-- No point of the segment is nearer. -/
theorem distance_le (holds : s.Holds p) : s.distance q ≤ q.distance p := by
  obtain ⟨t, part, rfl⟩ := holds
  rw [distance_eq, Point.exact_distance, Point.exact_distance, square_distance_at s q t,
    square_distance_at s q (nearestPart (s.foot q))]
  have near : (nearestPart (s.foot q) - s.foot q) ^ 2 ≤ (t - s.foot q) ^ 2 :=
    sq_le_sq.mpr (abs_nearestPart_sub_le part _)
  have nonneg : 0 ≤ s.squared := add_nonneg (sq_nonneg _) (sq_nonneg _)
  gcongr

theorem exists_holds_distance (s : Segment ℝ) (q : Point ℝ) :
    ∃ p, s.Holds p ∧ q.distance p = s.distance q :=
  ⟨_, ⟨_, part_nearestPart _, rfl⟩, (s.distance_eq q).symm⟩

theorem distance_nonneg (s : Segment ℝ) (q : Point ℝ) : 0 ≤ s.distance q := by
  rw [distance_eq]
  exact Point.distance_nonneg ..

theorem distance_eq_zero_iff : s.distance q = 0 ↔ s.Holds q := by
  constructor
  · intro zero
    obtain ⟨p, holds, same⟩ := s.exists_holds_distance q
    rwa [Point.distance_eq_zero_iff.mp (same.trans zero)]
  · intro holds
    have near : s.distance q ≤ q.distance q := distance_le holds
    rw [Point.distance_eq_zero_iff.mpr rfl] at near
    exact le_antisymm near (s.distance_nonneg q)

/-- A segment holds the same points from either end. -/
theorem holds_reversed (holds : s.Holds p) : s.reversed.Holds p := by
  obtain ⟨t, ⟨low, high⟩, rfl⟩ := holds
  refine ⟨1 - t, ⟨by linarith, by linarith⟩, ?_⟩
  simp only [Segment.at, reversed, Point.mk.injEq]
  constructor <;> ring

theorem distance_reversed (s : Segment ℝ) (q : Point ℝ) : s.reversed.distance q = s.distance q := by
  have no_further (s : Segment ℝ) : s.reversed.distance q ≤ s.distance q := by
    obtain ⟨p, holds, same⟩ := s.exists_holds_distance q
    rw [← same]
    exact distance_le (holds_reversed holds)
  exact le_antisymm (no_further s) (no_further s.reversed)

theorem box_reversed (s : Segment ℝ) : s.reversed.box = s.box := by
  rw [exact_box, exact_box, reversed]
  simp only [min_comm, max_comm]

end Segment
end VectorPaint
