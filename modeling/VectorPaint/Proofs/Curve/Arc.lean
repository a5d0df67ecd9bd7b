import Mathlib
import VectorPaint.Curve.Arc
import VectorPaint.Proofs.Plane.Angle

/-!
Arcs between two points. Half of the way between the points, turned back and measured in radii, says
whether an ellipse reaches both: it is no longer than one then. The center lies aside of the middle
of the way, on the side that the two flags choose, so that both points are seen from it as vectors
of length one in radii. The angle from one to the other is more than half a turn on the side where
the center is, and the arc goes along it or along the rest of the whole turn. In exact arithmetic
the arc meets both points therefore, with the stated radii or with the least multiple of them that
does.
-/
namespace VectorPaint

/-- The point lies on the ellipse about a center, whose radii are turned by `φ`. -/
def OnEllipse (center : Point ℝ) (rx ry φ : ℝ) (p : Point ℝ) : Prop :=
  (((p.x - center.x) * Real.cos φ + (p.y - center.y) * Real.sin φ) / rx) ^ 2 +
    (((p.y - center.y) * Real.cos φ - (p.x - center.x) * Real.sin φ) / ry) ^ 2 = 1

/-- Some ellipse with these radii passes through both points. -/
def Reached (p q : Point ℝ) (φ rx ry : ℝ) : Prop :=
  ∃ center, OnEllipse center rx ry φ p ∧ OnEllipse center rx ry φ q

/-- The points are on opposite sides of the center, at the same distance. -/
def Opposite (center p q : Point ℝ) : Prop :=
  p.x + q.x = 2 * center.x ∧ p.y + q.y = 2 * center.y

namespace Arc

open Point

variable {p q source target : Point ℝ} {rx ry φ : ℝ} {large sweep : Bool}

section Chord

/-- Half of the way from one point to another, turned back by `φ`. -/
noncomputable def chord (p q : Point ℝ) (φ : ℝ) : Point ℝ :=
  ⟨((p.x - q.x) * Real.cos φ + (p.y - q.y) * Real.sin φ) / 2,
    ((p.y - q.y) * Real.cos φ - (p.x - q.x) * Real.sin φ) / 2⟩

theorem exact_chord (p q : Point ℝ) (φ : ℝ) :
    (scale Scalar.half (p - q)).rotate (-φ) = chord p q φ := by
  have halved : scale Scalar.half (p - q) = ⟨1 / 2 * (p.x - q.x), 1 / 2 * (p.y - q.y)⟩ := by
    rw [← Scalar.exact_half]
    rfl
  rw [halved, exact_rotate, Real.cos_neg, Real.sin_neg, chord, Point.mk.injEq]
  constructor <;> ring

/-- Turned again, the chord leads from the middle to either end. -/
theorem rotate_chord (p q : Point ℝ) (φ : ℝ) :
    (chord p q φ).rotate φ = ⟨(p.x - q.x) / 2, (p.y - q.y) / 2⟩ := by
  have circle := Real.cos_sq_add_sin_sq φ
  rw [exact_rotate, chord, Point.mk.injEq]
  simp only
  constructor
  · linear_combination (p.x - q.x) / 2 * circle
  · linear_combination (p.y - q.y) / 2 * circle

/-- The square of the length of a vector that is measured in radii. -/
noncomputable def excess (rx ry : ℝ) (v : Point ℝ) : ℝ := (v.x / rx) ^ 2 + (v.y / ry) ^ 2

theorem excess_nonneg (rx ry : ℝ) (v : Point ℝ) : 0 ≤ excess rx ry v := by
  unfold excess
  positivity

theorem excess_chord_pos (wide : rx ≠ 0) (high : ry ≠ 0) (apart : p ≠ q) (φ : ℝ) :
    0 < excess rx ry (chord p q φ) := by
  refine (excess_nonneg ..).lt_of_ne' fun zero => apart ?_
  obtain ⟨x, y⟩ := (add_eq_zero_iff_of_nonneg (sq_nonneg _) (sq_nonneg _)).mp zero
  have still : chord p q φ = ⟨0, 0⟩ := by
    rw [pow_eq_zero_iff two_ne_zero, div_eq_zero_iff, or_iff_left wide] at x
    rw [pow_eq_zero_iff two_ne_zero, div_eq_zero_iff, or_iff_left high] at y
    exact congrArg₂ Point.mk x y
  have way := rotate_chord p q φ
  rw [still, exact_rotate, Point.mk.injEq] at way
  simp only [zero_mul, sub_zero, add_zero] at way
  cases p
  cases q
  rw [Point.mk.injEq]
  constructor <;> linarith

theorem excess_mul {k : ℝ} (rx ry : ℝ) (v : Point ℝ) :
    excess (k * rx) (k * ry) v = excess rx ry v / k ^ 2 := by
  unfold excess
  simp only [div_pow, mul_pow]
  rw [add_div, div_div, div_div, mul_comm (rx ^ 2), mul_comm (ry ^ 2)]

/-- Two points of an ellipse are no further apart than its opposite points. -/
theorem excess_le_of_reached (reached : Reached p q φ rx ry) :
    excess rx ry (chord p q φ) ≤ 1 := by
  obtain ⟨center, first, second⟩ := reached
  have apart : ∀ a b c d : ℝ, a ^ 2 + b ^ 2 = 1 → c ^ 2 + d ^ 2 = 1 →
      ((a - c) / 2) ^ 2 + ((b - d) / 2) ^ 2 ≤ 1 := by
    intro a b c d unit unit'
    nlinarith [sq_nonneg (a + c), sq_nonneg (b + d)]
  refine le_of_eq_of_le ?_ (apart _ _ _ _ first second)
  rw [excess, chord]
  ring

end Chord

section Center

/-- Radii that are too small are multiplied by the least factor that is enough. -/
noncomputable def growth (rx ry : ℝ) (v : Point ℝ) : ℝ := max 1 (√(excess rx ry v))

theorem growth_pos (rx ry : ℝ) (v : Point ℝ) : 0 < growth rx ry v :=
  zero_lt_one.trans_le (le_max_left ..)

theorem exact_fittedRadii (rx ry : ℝ) (v : Point ℝ) :
    fittedRadii rx ry v = (growth rx ry v * rx, growth rx ry v * ry) := by
  have excess_eq : v.x / rx * (v.x / rx) + v.y / ry * (v.y / ry) = excess rx ry v := by
    rw [excess, sq, sq]
  have answer : fittedRadii rx ry v = if 1 < excess rx ry v then
      (rx * √(excess rx ry v), ry * √(excess rx ry v)) else (rx, ry) := by
    rw [← excess_eq, ← Nat.cast_one (R := ℝ)]
    rfl
  rw [answer, growth]
  split
  · rename_i great
    rw [max_eq_right (Real.one_le_sqrt.mpr great.le), mul_comm rx, mul_comm ry]
  · rename_i small
    rw [max_eq_left (Real.sqrt_le_one.mpr (not_lt.mp small)), one_mul, one_mul]

theorem excess_growth_le (rx ry : ℝ) (v : Point ℝ) :
    excess (growth rx ry v * rx) (growth rx ry v * ry) v ≤ 1 := by
  rw [excess_mul, div_le_one (pow_pos (growth_pos rx ry v) 2)]
  exact (Real.sqrt_le_left (growth_pos rx ry v).le).mp (le_max_right ..)

/-- The center lies aside of the middle by this multiple of the chord, measured in radii and turned
by a right angle, and its sign tells on which side. -/
noncomputable def leanOf (rx ry : ℝ) (v : Point ℝ) (opposite : Bool) : ℝ :=
  if opposite then -√(1 / excess rx ry v - 1) else √(1 / excess rx ry v - 1)

variable {v : Point ℝ}

theorem room_nonneg (positive : 0 < excess rx ry v) (reached : excess rx ry v ≤ 1) :
    0 ≤ 1 / excess rx ry v - 1 :=
  sub_nonneg.mpr ((one_le_div positive).mpr reached)

/-- Half of the chord and the way from its middle to the center make up one radius. -/
theorem excess_mul_leanOf (positive : 0 < excess rx ry v) (reached : excess rx ry v ≤ 1)
    (opposite : Bool) : excess rx ry v * (1 + leanOf rx ry v opposite ^ 2) = 1 := by
  have root := Real.sq_sqrt (room_nonneg positive reached)
  have square : leanOf rx ry v opposite ^ 2 = 1 / excess rx ry v - 1 := by
    unfold leanOf
    split
    · rw [neg_sq, root]
    · exact root
  rw [square, add_sub_cancel, mul_one_div_cancel positive.ne']

theorem leanOf_neg_iff {opposite : Bool} (aside : leanOf rx ry v opposite ≠ 0) :
    leanOf rx ry v opposite < 0 ↔ opposite = true := by
  have root := Real.sqrt_nonneg (1 / excess rx ry v - 1)
  cases opposite with
  | true => exact iff_of_true (lt_of_le_of_ne (neg_nonpos.mpr root) aside) rfl
  | false => exact iff_of_false root.not_gt Bool.false_ne_true

theorem exact_centerThrough (wide : rx ≠ 0) (high : ry ≠ 0) (positive : 0 < excess rx ry v)
    (reached : excess rx ry v ≤ 1) (opposite : Bool) :
    centerThrough rx ry v opposite =
      ⟨rx * (leanOf rx ry v opposite * (v.y / ry)),
        -(ry * (leanOf rx ry v opposite * (v.x / rx)))⟩ := by
  have room : (rx * ry) * (rx * ry) / ((rx * v.y) * (rx * v.y) + (ry * v.x) * (ry * v.x)) - 1 =
      1 / excess rx ry v - 1 := by
    have spread : (rx * v.y) * (rx * v.y) + (ry * v.x) * (ry * v.x) =
        excess rx ry v * ((rx * ry) * (rx * ry)) := by
      unfold excess
      field_simp
      ring
    rw [spread, div_mul_cancel_right₀ (by positivity), one_div]
  have answer : centerThrough rx ry v opposite =
      ⟨leanOf rx ry v opposite * (rx * v.y / ry), leanOf rx ry v opposite * (-ry * v.x / rx)⟩ := by
    unfold centerThrough
    simp only [Scalar.exact_greatest, Scalar.exact_ofNat, Nat.cast_zero, Nat.cast_one]
    change (scale (if opposite then -√(max ((rx * ry) * (rx * ry) /
      ((rx * v.y) * (rx * v.y) + (ry * v.x) * (ry * v.x)) - 1) 0) else _) _ : Point ℝ) = _
    rw [room, max_eq_left (room_nonneg positive reached)]
    rfl
  rw [answer, Point.mk.injEq]
  constructor <;> ring

end Center

section Layout

/-- An end of the chord as it is seen from the center, measured in radii. -/
noncomputable def seen (rx ry : ℝ) (v : Point ℝ) (lean : ℝ) : Point ℝ :=
  ⟨v.x / rx - lean * (v.y / ry), v.y / ry + lean * (v.x / rx)⟩

/-- The vector to the other end of the chord. -/
def opposed (v : Point ℝ) : Point ℝ := ⟨-v.x, -v.y⟩

/-- How an arc lies on its chord: the place of the center, the angle where the arc starts and the
angle from there to its end. -/
structure Layout (v : Point ℝ) (rx ry : ℝ) (opposite : Bool) where
  lean : ℝ
  first : ℝ
  turn : ℝ
  wide : 0 < rx
  high : 0 < ry
  positive : 0 < excess rx ry v
  fits : excess rx ry v * (1 + lean ^ 2) = 1
  side : lean ≠ 0 → (lean < 0 ↔ opposite = true)
  begins : Turns ⟨1, 0⟩ (seen rx ry v lean) first
  goes : Turns (seen rx ry v lean) (seen rx ry (opposed v) (-lean)) turn

variable {v : Point ℝ} {lean : ℝ} {opposite : Bool}

theorem seen_eq (wide : rx ≠ 0) (high : ry ≠ 0) (v : Point ℝ) (lean : ℝ) :
    (⟨(v.x - rx * (lean * (v.y / ry))) / rx, (v.y - -(ry * (lean * (v.x / rx)))) / ry⟩ : Point ℝ) =
      seen rx ry v lean := by
  rw [seen, Point.mk.injEq, sub_div, sub_neg_eq_add, add_div, mul_div_cancel_left₀ _ wide,
    mul_div_cancel_left₀ _ high]
  exact ⟨rfl, rfl⟩

theorem seen_opposed_eq (wide : rx ≠ 0) (high : ry ≠ 0) (v : Point ℝ) (lean : ℝ) :
    (⟨(-v.x - rx * (lean * (v.y / ry))) / rx, (-v.y - -(ry * (lean * (v.x / rx)))) / ry⟩ :
      Point ℝ) = seen rx ry (opposed v) (-lean) := by
  rw [← seen_eq wide high, opposed, Point.mk.injEq]
  constructor <;> ring

theorem unit_seen (fits : excess rx ry v * (1 + lean ^ 2) = 1) : (seen rx ry v lean).Unit := by
  rw [Point.Unit, ← fits, excess, seen]
  ring

theorem unit_seen_opposed (fits : excess rx ry v * (1 + lean ^ 2) = 1) :
    (seen rx ry (opposed v) (-lean)).Unit := by
  apply unit_seen
  refine Eq.trans ?_ fits
  rw [excess, excess, opposed, neg_sq]
  simp only [neg_div, neg_sq]

theorem dot_seen (rx ry : ℝ) (v : Point ℝ) (lean : ℝ) :
    (seen rx ry v lean).dot (seen rx ry (opposed v) (-lean)) =
      (lean ^ 2 - 1) * excess rx ry v := by
  rw [exact_dot, seen, seen, opposed, excess]
  ring

theorem cross_seen (rx ry : ℝ) (v : Point ℝ) (lean : ℝ) :
    (seen rx ry v lean).cross (seen rx ry (opposed v) (-lean)) = 2 * lean * excess rx ry v := by
  rw [exact_cross, seen, seen, opposed, excess]
  ring

/-- Where an ellipse is large enough, the center and both angles are found. -/
theorem exists_layout (wide : 0 < rx) (high : 0 < ry) (positive : 0 < excess rx ry v)
    (reached : excess rx ry v ≤ 1) (opposite : Bool) :
    ∃ layout : Layout v rx ry opposite,
      centerThrough rx ry v opposite =
        ⟨rx * (layout.lean * (v.y / ry)), -(ry * (layout.lean * (v.x / rx)))⟩ ∧
      angleTo ⟨1, 0⟩ (seen rx ry v layout.lean) = some layout.first ∧
      (seen rx ry v layout.lean).angleTo (seen rx ry (opposed v) (-layout.lean)) =
        some layout.turn := by
  have center := exact_centerThrough wide.ne' high.ne' positive reached opposite
  have fits := excess_mul_leanOf positive reached opposite
  have axis : (⟨1, 0⟩ : Point ℝ).Unit := by
    rw [Point.Unit]
    norm_num
  obtain ⟨first, first_eq, begins⟩ := exists_turns axis (unit_seen fits)
  obtain ⟨turn, turn_eq, goes⟩ := exists_turns (unit_seen fits) (unit_seen_opposed fits)
  exact ⟨⟨leanOf rx ry v opposite, first, turn, wide, high, positive, fits, leanOf_neg_iff, begins,
    goes⟩, center, first_eq, turn_eq⟩

namespace Layout

variable (layout : Layout v rx ry opposite)

/-- The angle is negative just if the center lies on the side that is called opposite. -/
theorem turn_neg_iff : layout.turn < 0 ↔ layout.lean < 0 := by
  rw [layout.goes.neg_iff, cross_seen, mul_neg_iff, or_iff_right (by
    intro both
    exact both.2.not_gt layout.positive), and_iff_left layout.positive]
  constructor <;> intro <;> linarith

theorem turn_ne_zero : layout.turn ≠ 0 := by
  intro zero
  have cos := layout.goes.cos
  rw [zero, Real.cos_zero, dot_seen] at cos
  nlinarith [layout.fits, layout.positive]

theorem turn_ne_pi (aside : layout.lean ≠ 0) : layout.turn ≠ Real.pi := by
  intro half
  have sin := layout.goes.sin
  rw [half, Real.sin_pi, cross_seen] at sin
  exact mul_ne_zero (mul_ne_zero two_ne_zero aside) layout.positive.ne' sin.symm

end Layout

end Layout

section Extent

variable {turn : ℝ} {sweep : Bool}

theorem exact_fullTurn : (fullTurn : ℝ) = 2 * Real.pi := by
  change ((2 : ℕ) : ℝ) * Real.pi = _
  rw [Nat.cast_ofNat]

theorem exact_directedExtent (sweep : Bool) (low : -Real.pi < turn) (moved : turn ≠ 0) :
    directedExtent sweep turn =
      if turn < 0 then (if sweep then turn + 2 * Real.pi else turn)
      else if sweep then turn else turn - 2 * Real.pi := by
  have round := Real.pi_pos
  unfold directedExtent nonnegativeAngle
  rw [exact_fullTurn, Scalar.exact_ofNat, Nat.cast_zero]
  split
  · rename_i negative
    have positive : 0 < turn + 2 * Real.pi := by linarith
    cases sweep <;> simp [positive, positive.not_gt]
  · rename_i nonneg
    have positive : 0 < turn := (not_lt.mp nonneg).lt_of_ne' moved
    cases sweep <;> simp [positive, positive.not_gt]

/-- The extent differs from the angle by a whole turn at most, so it ends at the same place. -/
theorem exists_directedExtent_eq (sweep : Bool) (low : -Real.pi < turn) (moved : turn ≠ 0) :
    ∃ k : ℤ, directedExtent sweep turn = turn + k * (2 * Real.pi) := by
  rw [exact_directedExtent sweep low moved]
  by_cases negative : turn < 0
  · cases sweep with
    | true => exact ⟨1, by simp [negative]⟩
    | false => exact ⟨0, by simp [negative]⟩
  · cases sweep with
    | true => exact ⟨0, by simp [negative]⟩
    | false => exact ⟨-1, by simp [negative, sub_eq_add_neg]⟩

theorem directedExtent_pos (low : -Real.pi < turn) (moved : turn ≠ 0) :
    0 < directedExtent true turn := by
  have round := Real.pi_pos
  rw [exact_directedExtent true low moved, if_pos rfl, if_pos rfl]
  split
  · linarith
  · rename_i nonneg
    exact (not_lt.mp nonneg).lt_of_ne' moved

theorem directedExtent_neg (low : -Real.pi < turn) (high : turn ≤ Real.pi) (moved : turn ≠ 0) :
    directedExtent false turn < 0 := by
  have round := Real.pi_pos
  rw [exact_directedExtent false low moved, if_neg Bool.false_ne_true, if_neg Bool.false_ne_true]
  split
  · assumption
  · linarith

theorem abs_directedExtent_lt (sweep : Bool) (low : -Real.pi < turn) (high : turn ≤ Real.pi)
    (moved : turn ≠ 0) : |directedExtent sweep turn| < 2 * Real.pi := by
  have round := Real.pi_pos
  cases sweep with
  | true =>
    rw [abs_of_pos (directedExtent_pos low moved), exact_directedExtent true low moved, if_pos rfl,
      if_pos rfl]
    split <;> linarith
  | false =>
    rw [abs_of_neg (directedExtent_neg low high moved), exact_directedExtent false low moved,
      if_neg Bool.false_ne_true, if_neg Bool.false_ne_true]
    split
    · linarith
    · rename_i nonneg
      linarith [(not_lt.mp nonneg).lt_of_ne' moved]

/-- The longer way is the one against the angle. -/
theorem half_lt_abs_directedExtent_iff (sweep : Bool) (low : -Real.pi < turn)
    (high : turn ≤ Real.pi) (moved : turn ≠ 0) (bent : turn ≠ Real.pi) :
    Real.pi < |directedExtent sweep turn| ↔ (turn < 0 ↔ sweep = true) := by
  have round := Real.pi_pos
  have less : turn < Real.pi := high.lt_of_ne bent
  cases sweep with
  | true =>
    rw [abs_of_pos (directedExtent_pos low moved), exact_directedExtent true low moved, if_pos rfl,
      if_pos rfl, iff_true_right rfl]
    split
    · rename_i negative
      exact iff_of_true (by linarith) negative
    · rename_i nonneg
      exact iff_of_false high.not_gt nonneg
  | false =>
    rw [abs_of_neg (directedExtent_neg low high moved), exact_directedExtent false low moved,
      if_neg Bool.false_ne_true, if_neg Bool.false_ne_true, iff_false_right Bool.false_ne_true]
    split
    · rename_i negative
      exact iff_of_false (by linarith) (not_not.mpr negative)
    · rename_i nonneg
      exact iff_of_true (by linarith) nonneg

end Extent

section Through

variable {v : Point ℝ} {opposite : Bool}

theorem exact_pointAt (arc : Arc ℝ) (t : ℝ) :
    arc.pointAt t =
      (⟨arc.rx * Real.cos (arc.angle + t * arc.extent),
        arc.ry * Real.sin (arc.angle + t * arc.extent)⟩ : Point ℝ).rotate arc.rotation +
      arc.center := rfl

/-- A whole ellipse begins with its point with the largest `x`. -/
theorem exact_ellipse_pointAt (center : Point ℝ) (rx ry t : ℝ) :
    (ellipse center rx ry).pointAt t = ⟨center.x + |rx| * Real.cos (2 * Real.pi * t),
      center.y + |ry| * Real.sin (2 * Real.pi * t)⟩ := by
  rw [exact_pointAt, exact_rotate, Point.exact_add]
  simp only [ellipse, exact_fullTurn, Scalar.exact_abs, Scalar.exact_ofNat, Nat.cast_zero,
    Real.cos_zero, Real.sin_zero, zero_add, mul_one, mul_zero, sub_zero, Point.mk.injEq,
    mul_comm t]
  exact ⟨add_comm _ _, add_comm _ _⟩

/-- Every place of an arc lies on its ellipse. -/
theorem onEllipse_pointAt (arc : Arc ℝ) (wide : arc.rx ≠ 0) (high : arc.ry ≠ 0) (t : ℝ) :
    OnEllipse arc.center arc.rx arc.ry arc.rotation (arc.pointAt t) := by
  have circle := Real.cos_sq_add_sin_sq arc.rotation
  have angle := Real.cos_sq_add_sin_sq (arc.angle + t * arc.extent)
  rw [exact_pointAt, exact_rotate, Point.exact_add, OnEllipse]
  simp only
  rw [← angle]
  congr 2
  · rw [div_eq_iff wide]
    linear_combination arc.rx * Real.cos (arc.angle + t * arc.extent) * circle
  · rw [div_eq_iff high]
    linear_combination arc.ry * Real.sin (arc.angle + t * arc.extent) * circle

namespace Layout

/-- The arc with this layout on a chord about `middle`, turned by `φ`. -/
noncomputable def arc (layout : Layout v rx ry opposite) (middle : Point ℝ) (φ : ℝ)
    (sweep : Bool) : Arc ℝ where
  center := (⟨rx * (layout.lean * (v.y / ry)), -(ry * (layout.lean * (v.x / rx)))⟩ :
    Point ℝ).rotate φ + middle
  rx := rx
  ry := ry
  rotation := φ
  angle := layout.first
  extent := directedExtent sweep layout.turn

variable (layout : Layout v rx ry opposite) (middle : Point ℝ) (sweep : Bool)

/-- Where an arc starts, as seen from its center. -/
theorem cos_sin_first : Real.cos layout.first = (seen rx ry v layout.lean).x ∧
    Real.sin layout.first = (seen rx ry v layout.lean).y := by
  rw [layout.begins.cos, layout.begins.sin, exact_dot, exact_cross]
  constructor <;> ring

/-- Where an arc ends, as seen from its center. -/
theorem cos_sin_last :
    Real.cos (layout.first + directedExtent sweep layout.turn) =
        (seen rx ry (opposed v) (-layout.lean)).x ∧
      Real.sin (layout.first + directedExtent sweep layout.turn) =
        (seen rx ry (opposed v) (-layout.lean)).y := by
  obtain ⟨k, extent⟩ := exists_directedExtent_eq sweep layout.goes.low layout.turn_ne_zero
  obtain ⟨cos, sin⟩ := layout.cos_sin_first
  rw [← layout.goes.rotate_eq (unit_seen layout.fits), exact_rotate, extent, ← add_assoc,
    Real.cos_add_int_mul_two_pi, Real.sin_add_int_mul_two_pi, Real.cos_add, Real.sin_add, cos, sin]
  exact ⟨rfl, by ring⟩

theorem pointAt_zero (φ : ℝ) :
    (layout.arc middle φ sweep).pointAt 0 = v.rotate φ + middle := by
  obtain ⟨cos, sin⟩ := layout.cos_sin_first
  have wide := layout.wide.ne'
  have high := layout.high.ne'
  rw [exact_pointAt, arc, zero_mul, add_zero, cos, sin, seen]
  simp only [exact_rotate, Point.exact_add, Point.mk.injEq]
  constructor <;> field_simp <;> ring

theorem pointAt_one (φ : ℝ) :
    (layout.arc middle φ sweep).pointAt 1 = (opposed v).rotate φ + middle := by
  obtain ⟨cos, sin⟩ := layout.cos_sin_last sweep
  have wide := layout.wide.ne'
  have high := layout.high.ne'
  rw [exact_pointAt, arc, one_mul, cos, sin, seen, opposed]
  simp only [exact_rotate, Point.exact_add, Point.mk.injEq]
  constructor <;> field_simp <;> ring

end Layout

/-- The middle between two points. -/
noncomputable def middle (p q : Point ℝ) : Point ℝ := scale Scalar.half (q + p)

theorem exact_middle (p q : Point ℝ) : middle p q = ⟨(p.x + q.x) / 2, (p.y + q.y) / 2⟩ := by
  have halved : middle p q = ⟨1 / 2 * (q.x + p.x), 1 / 2 * (q.y + p.y)⟩ := by
    rw [← Scalar.exact_half]
    rfl
  rw [halved, Point.mk.injEq]
  constructor <;> ring

theorem rotate_chord_add_middle (p q : Point ℝ) (φ : ℝ) :
    (chord p q φ).rotate φ + middle p q = p := by
  rw [rotate_chord, exact_middle, Point.exact_add]
  cases p
  rw [Point.mk.injEq]
  constructor <;> ring

theorem rotate_opposed_chord_add_middle (p q : Point ℝ) (φ : ℝ) :
    (opposed (chord p q φ)).rotate φ + middle p q = q := by
  have turned : (opposed (chord p q φ)).rotate φ = opposed ((chord p q φ).rotate φ) := by
    simp only [exact_rotate, opposed, Point.mk.injEq]
    constructor <;> ring
  rw [turned, rotate_chord, exact_middle, opposed, Point.exact_add]
  cases q
  rw [Point.mk.injEq]
  constructor <;> ring

theorem Layout.start_eq (layout : Layout (chord p q φ) rx ry opposite) (sweep : Bool) :
    (layout.arc (middle p q) φ sweep).pointAt 0 = p := by
  rw [layout.pointAt_zero, rotate_chord_add_middle]

theorem Layout.stop_eq (layout : Layout (chord p q φ) rx ry opposite) (sweep : Bool) :
    (layout.arc (middle p q) φ sweep).pointAt 1 = q := by
  rw [layout.pointAt_one, rotate_opposed_chord_add_middle]

/-- Half of the way, measured in radii, tells whether an ellipse reaches both of its ends. -/
theorem reached_iff (wide : 0 < rx) (high : 0 < ry) (apart : p ≠ q) :
    Reached p q φ rx ry ↔ excess rx ry (chord p q φ) ≤ 1 := by
  constructor
  · exact excess_le_of_reached
  · intro reached
    have positive := excess_chord_pos wide.ne' high.ne' apart φ
    obtain ⟨layout, -⟩ := exists_layout wide high positive reached true
    have meets := onEllipse_pointAt (layout.arc (middle p q) φ true) wide.ne' high.ne'
    have first := meets 0
    have last := meets 1
    rw [layout.start_eq] at first
    rw [layout.stop_eq] at last
    exact ⟨(layout.arc (middle p q) φ true).center, first, last⟩

/-- Radii that do not reach are multiplied by the least factor with which they do. -/
theorem isLeast_growth (wide : 0 < rx) (high : 0 < ry) (apart : p ≠ q)
    (short : ¬ Reached p q φ rx ry) :
    IsLeast {k | 0 < k ∧ Reached p q φ (k * rx) (k * ry)} (growth rx ry (chord p q φ)) := by
  rw [reached_iff wide high apart, not_le] at short
  have grown := growth_pos rx ry (chord p q φ)
  refine ⟨⟨grown, ?_⟩, ?_⟩
  · rw [reached_iff (mul_pos grown wide) (mul_pos grown high) apart]
    exact excess_growth_le ..
  · rintro k ⟨positive, reached⟩
    rw [reached_iff (mul_pos positive wide) (mul_pos positive high) apart, excess_mul,
      div_le_one (pow_pos positive 2)] at reached
    have root : √(excess rx ry (chord p q φ)) ≤ k := (Real.sqrt_le_left positive.le).mpr reached
    have one : 1 ≤ √(excess rx ry (chord p q φ)) := Real.one_le_sqrt.mpr short.le
    exact max_le (one.trans root) root

theorem growth_of_reached (wide : 0 < rx) (high : 0 < ry) (apart : p ≠ q)
    (reached : Reached p q φ rx ry) : growth rx ry (chord p q φ) = 1 := by
  rw [reached_iff wide high apart] at reached
  exact max_eq_left (Real.sqrt_le_one.mpr reached)

end Through

section Between

theorem near_eq_false_iff : source.near target = false ↔
    ¬ (|source.x - target.x| < Scalar.epsilon ∧ |source.y - target.y| < Scalar.epsilon) := by
  rw [← Bool.not_eq_true, near, Bool.and_eq_true, decide_eq_true_iff, decide_eq_true_iff]
  rfl

theorem ne_of_not_near (apart : source.near target = false) : source ≠ target := by
  rintro rfl
  apply near_eq_false_iff.mp apart
  have small : (0 : ℝ) < Scalar.epsilon := by
    change (0 : ℝ) < 1 / 2 ^ 52
    positivity
  rw [sub_self, sub_self, abs_zero]
  exact ⟨small, small⟩

/-- There is an arc between any two points that are apart, with a layout on the way between them. -/
theorem exists_between (apart : source.near target = false) (wide : rx ≠ 0) (high : ry ≠ 0)
    (rotation : ℝ) (large sweep : Bool) :
    ∃ layout : Layout (chord source target (rotation * Real.pi / 180))
        (growth |rx| |ry| (chord source target (rotation * Real.pi / 180)) * |rx|)
        (growth |rx| |ry| (chord source target (rotation * Real.pi / 180)) * |ry|)
        (large == sweep),
      between source target rx ry rotation large sweep =
        some (layout.arc (middle source target) (rotation * Real.pi / 180) sweep) := by
  generalize turned : rotation * Real.pi / 180 = φ
  have grown := growth_pos |rx| |ry| (chord source target φ)
  have wide_pos := mul_pos grown (abs_pos.mpr wide)
  have high_pos := mul_pos grown (abs_pos.mpr high)
  obtain ⟨layout, center, first, turn⟩ := exists_layout wide_pos high_pos
    (excess_chord_pos wide_pos.ne' high_pos.ne' (ne_of_not_near apart) φ)
    (excess_growth_le ..) (large == sweep)
  refine ⟨layout, ?_⟩
  have wide_test : (|rx| == 0) = false := beq_eq_false_iff_ne.mpr (abs_ne_zero.mpr wide)
  have high_test : (|ry| == 0) = false := beq_eq_false_iff_ne.mpr (abs_ne_zero.mpr high)
  have degrees : rotation * Scalar.pi / ((180 : ℕ) : ℝ) = φ := by
    rw [Nat.cast_ofNat]
    exact turned
  unfold between
  simp only [Scalar.exact_abs, Scalar.exact_ofNat, Nat.cast_zero, Nat.cast_one, wide_test,
    high_test, apart, Bool.or_self, Bool.false_eq_true, if_false, degrees, exact_chord,
    exact_fittedRadii, center, seen_eq wide_pos.ne' high_pos.ne',
    seen_opposed_eq wide_pos.ne' high_pos.ne', first, turn, Option.bind_eq_bind, Option.bind_some]
  rfl

/-- Without a lean the center is the middle of the way. -/
theorem Layout.opposite_of_lean_eq_zero (layout : Layout (chord p q φ) rx ry opposite)
    (sweep : Bool) (upright : layout.lean = 0) :
    Opposite (layout.arc (middle p q) φ sweep).center p q := by
  rw [arc, upright, exact_middle, exact_rotate, Point.exact_add, Opposite]
  constructor <;> ring

/-- The angle at a place of an arc, before the radii are turned. -/
def angleAt (arc : Arc ℝ) (t : ℝ) : ℝ := arc.angle + t * arc.extent

theorem strictMono_angleAt_iff (arc : Arc ℝ) : StrictMono arc.angleAt ↔ 0 < arc.extent := by
  constructor
  · intro grows
    have step := grows zero_lt_one
    rw [angleAt, angleAt] at step
    linarith
  · intro positive s t less
    rw [angleAt, angleAt]
    exact (add_lt_add_iff_left _).mpr (mul_lt_mul_of_pos_right less positive)

theorem strictAnti_angleAt_iff (arc : Arc ℝ) : StrictAnti arc.angleAt ↔ arc.extent < 0 := by
  constructor
  · intro falls
    have step := falls zero_lt_one
    rw [angleAt, angleAt] at step
    linarith
  · intro negative s t less
    rw [angleAt, angleAt]
    exact (add_lt_add_iff_left _).mpr (mul_lt_mul_of_neg_right less negative)

/-- The arc leads from one point to the other as the radii, the rotation in degrees and the two
flags ask for. -/
structure Joins (source target : Point ℝ) (rx ry rotation : ℝ) (large sweep : Bool)
    (arc : Arc ℝ) : Prop where
  start : arc.pointAt 0 = source
  stop : arc.pointAt 1 = target
  along : ∀ t, OnEllipse arc.center arc.rx arc.ry arc.rotation (arc.pointAt t)
  turned : arc.rotation = rotation * Real.pi / 180
  stated : Reached source target arc.rotation |rx| |ry| → arc.rx = |rx| ∧ arc.ry = |ry|
  scaled : ¬ Reached source target arc.rotation |rx| |ry| →
    ∃ k, IsLeast {k | 0 < k ∧ Reached source target arc.rotation (k * |rx|) (k * |ry|)} k ∧
      arc.rx = k * |rx| ∧ arc.ry = k * |ry|
  forth : StrictMono arc.angleAt ↔ sweep = true
  back : StrictAnti arc.angleAt ↔ sweep = false
  within : |arc.extent| < 2 * Real.pi
  long : ¬ Opposite arc.center source target → (Real.pi < |arc.extent| ↔ large = true)

/-- Between any two points that are apart there is an arc that joins them as it is asked for. -/
theorem between_joins (source target : Point ℝ) (rx ry rotation : ℝ) (large sweep : Bool)
    (apart : ¬ (|source.x - target.x| < Scalar.epsilon ∧ |source.y - target.y| < Scalar.epsilon))
    (wide : rx ≠ 0) (high : ry ≠ 0) :
    ∃ arc, between source target rx ry rotation large sweep = some arc ∧
      Joins source target rx ry rotation large sweep arc := by
  have distinct := ne_of_not_near (near_eq_false_iff.mpr apart)
  have wide_pos := abs_pos.mpr wide
  have high_pos := abs_pos.mpr high
  obtain ⟨layout, found⟩ := exists_between (near_eq_false_iff.mpr apart) wide high rotation large
    sweep
  have moved := layout.turn_ne_zero
  have low := layout.goes.low
  have most := layout.goes.high
  refine ⟨_, found, ?_⟩
  constructor
  case start => exact layout.start_eq sweep
  case stop => exact layout.stop_eq sweep
  case along => exact onEllipse_pointAt _ layout.wide.ne' layout.high.ne'
  case turned => rfl
  case stated =>
    intro reached
    have kept := growth_of_reached wide_pos high_pos distinct reached
    rw [Layout.arc] at kept ⊢
    simp only at kept ⊢
    rw [kept, one_mul, one_mul]
    exact ⟨rfl, rfl⟩
  case scaled =>
    intro short
    exact ⟨_, isLeast_growth wide_pos high_pos distinct short, rfl, rfl⟩
  case forth =>
    rw [strictMono_angleAt_iff]
    cases sweep with
    | true => exact iff_of_true (directedExtent_pos low moved) rfl
    | false => exact iff_of_false (directedExtent_neg low most moved).not_gt Bool.false_ne_true
  case back =>
    rw [strictAnti_angleAt_iff]
    cases sweep with
    | true =>
      exact iff_of_false (directedExtent_pos low moved).not_gt Bool.false_ne_true.symm
    | false => exact iff_of_true (directedExtent_neg low most moved) rfl
  case within => exact abs_directedExtent_lt sweep low most moved
  case long =>
    intro skew
    have aside : layout.lean ≠ 0 := fun upright =>
      skew (layout.opposite_of_lean_eq_zero sweep upright)
    change Real.pi < |directedExtent sweep layout.turn| ↔ _
    rw [half_lt_abs_directedExtent_iff sweep low most moved (layout.turn_ne_pi aside),
      layout.turn_neg_iff, layout.side aside]
    cases large <;> cases sweep <;> decide

/-- An arc over a way that is too long for its radii. -/
theorem joins_wide_way : ∃ arc, between ⟨0, 0⟩ ⟨10, 0⟩ (-1) 1 30 true false = some arc ∧
    Joins ⟨0, 0⟩ ⟨10, 0⟩ (-1) 1 30 true false arc := by
  refine between_joins ⟨0, 0⟩ ⟨10, 0⟩ (-1) 1 30 true false ?_ ?_ one_ne_zero
  · intro near
    have less : |(0 : ℝ) - 10| < 1 / 2 ^ 52 := near.1
    norm_num at less
  · norm_num

end Between
end Arc
end VectorPaint
