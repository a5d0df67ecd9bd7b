import Mathlib
import VectorPaint.Proofs.Plane.Exact

/-!
Angles between vectors of length one. In exact arithmetic two such vectors always have an angle,
which is more than minus half a turn and at most half a turn. Its cosine and its sine are the dot
product and the cross product, so turning the first vector by it gives the second one.
-/
namespace VectorPaint.Point

variable {p q : Point ℝ} {angle : ℝ}

theorem exact_rotate (p : Point ℝ) (angle : ℝ) :
    p.rotate angle = ⟨p.x * Real.cos angle - p.y * Real.sin angle,
      p.x * Real.sin angle + p.y * Real.cos angle⟩ := rfl

theorem exact_dot (p q : Point ℝ) : p.dot q = p.x * q.x + p.y * q.y := rfl

theorem exact_cross (p q : Point ℝ) : p.cross q = p.x * q.y - p.y * q.x := rfl

/-- The vector has length one. -/
def Unit (p : Point ℝ) : Prop := p.x ^ 2 + p.y ^ 2 = 1

theorem Unit.length_eq (unit : p.Unit) : p.length = 1 := by
  change √(p.x ^ 2 + p.y ^ 2) = 1
  rw [unit, Real.sqrt_one]

/-- The square on the hypotenuse: dot and cross product of two vectors of length one. -/
theorem Unit.dot_sq_add_cross_sq (first : p.Unit) (second : q.Unit) :
    p.dot q ^ 2 + p.cross q ^ 2 = 1 := by
  calc p.dot q ^ 2 + p.cross q ^ 2
      = (p.x ^ 2 + p.y ^ 2) * (q.x ^ 2 + q.y ^ 2) := by
        rw [exact_dot, exact_cross]
        ring
    _ = 1 := by rw [first, second, one_mul]

/-- The angle from one vector to another of the same length one. -/
structure Turns (p q : Point ℝ) (angle : ℝ) : Prop where
  cos : Real.cos angle = p.dot q
  sin : Real.sin angle = p.cross q
  low : -Real.pi < angle
  high : angle ≤ Real.pi

/-- Turning by the angle leads from the first vector to the second. -/
theorem Turns.rotate_eq (turns : Turns p q angle) (unit : p.Unit) : p.rotate angle = q := by
  have length : p.x ^ 2 + p.y ^ 2 = 1 := unit
  rw [exact_rotate, turns.cos, turns.sin, exact_dot, exact_cross]
  cases q with
  | mk x y =>
    rw [mk.injEq]
    simp only
    constructor
    · linear_combination x * length
    · linear_combination y * length

theorem exact_cosBetween (first : p.Unit) (second : q.Unit) :
    p.cosBetween q = some (p.dot q) := by
  unfold cosBetween
  simp only [first.length_eq, second.length_eq]
  have apart : ¬ ((1 : ℝ) * 1 < Scalar.epsilon) := by
    change ¬ ((1 : ℝ) * 1 < 1 / 2 ^ 52)
    norm_num
  rw [if_neg apart]
  change some (p.dot q / ((1 : ℝ) * 1)) = _
  rw [mul_one, div_one]

/-- A cosine needs not be held between the bounds. -/
theorem exact_clamp_of_abs_le_one {c : ℝ} (bound : |c| ≤ 1) :
    Scalar.clamp c (-Scalar.ofNat 1) (Scalar.ofNat 1) = c := by
  obtain ⟨low, high⟩ := abs_le.mp bound
  have above : ¬ c < -Scalar.ofNat 1 := by
    change ¬ c < -((1 : ℕ) : ℝ)
    rw [Nat.cast_one]
    exact not_lt.mpr low
  have below : ¬ (Scalar.ofNat 1 : ℝ) < c := by
    change ¬ ((1 : ℕ) : ℝ) < c
    rw [Nat.cast_one]
    exact not_lt.mpr high
  rw [Scalar.clamp, if_neg above, if_neg below]

theorem Unit.abs_dot_le_one (first : p.Unit) (second : q.Unit) : |p.dot q| ≤ 1 := by
  have squares := first.dot_sq_add_cross_sq second
  exact abs_le_one_iff_mul_self_le_one.mpr (by nlinarith)

theorem Unit.sin_arccos_dot (first : p.Unit) (second : q.Unit) :
    Real.sin (Real.arccos (p.dot q)) = |p.cross q| := by
  have squares := first.dot_sq_add_cross_sq second
  rw [Real.sin_arccos, ← Real.sqrt_sq_eq_abs]
  congr 1
  linarith

theorem exact_angleTo (first : p.Unit) (second : q.Unit) :
    p.angleTo q = some (if p.cross q < 0 then -Real.arccos (p.dot q)
      else Real.arccos (p.dot q)) := by
  unfold angleTo
  rw [exact_cosBetween first second, Option.map_some]
  simp only [exact_clamp_of_abs_le_one (first.abs_dot_le_one second)]
  rw [Scalar.exact_ofNat, Nat.cast_zero]
  rfl

theorem exists_turns (first : p.Unit) (second : q.Unit) :
    ∃ angle, p.angleTo q = some angle ∧ Turns p q angle := by
  obtain ⟨low, high⟩ := abs_le.mp (first.abs_dot_le_one second)
  have cos : Real.cos (Real.arccos (p.dot q)) = p.dot q := Real.cos_arccos low high
  have sin := first.sin_arccos_dot second
  have least := Real.arccos_nonneg (p.dot q)
  have most := Real.arccos_le_pi (p.dot q)
  have half := Real.pi_pos
  refine ⟨_, exact_angleTo first second, ?_⟩
  split
  · rename_i negative
    rw [abs_of_neg negative] at sin
    -- half a turn has no sine, so it is never turned back
    have bent : Real.arccos (p.dot q) ≠ Real.pi := by
      intro straight
      rw [straight, Real.sin_pi] at sin
      linarith
    refine ⟨?_, ?_, ?_, ?_⟩
    · rw [Real.cos_neg, cos]
    · rw [Real.sin_neg, sin, neg_neg]
    · exact neg_lt_neg (most.lt_of_ne bent)
    · linarith
  · rename_i nonneg
    rw [abs_of_nonneg (not_lt.mp nonneg)] at sin
    refine ⟨cos, sin, ?_, most⟩
    linarith

/-- The angle is negative just if the second vector lies on the other side. -/
theorem Turns.neg_iff (turns : Turns p q angle) : angle < 0 ↔ p.cross q < 0 := by
  rw [← turns.sin]
  constructor
  · intro negative
    exact Real.sin_neg_of_neg_of_neg_pi_lt negative turns.low
  · contrapose!
    intro nonneg
    exact Real.sin_nonneg_of_nonneg_of_le_pi nonneg turns.high

end VectorPaint.Point
