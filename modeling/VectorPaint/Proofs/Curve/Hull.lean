import Mathlib
import VectorPaint.Curve.Flatten
import VectorPaint.Proofs.Curve.Calls
import VectorPaint.Proofs.Plane.Distance

/-!
Curves and their control points. In exact arithmetic every point of a curve is a mean of its control
points with weights from the binomial expansion of a power of `t + (1 - t)`, and so is every vertex
of its flattening. Weights that are not negative and add up to one lead out of no box and no segment
that holds all control points, and an affine map may be applied before or after a mean. From the
other end the same weights come in reverse order.
-/
namespace VectorPaint

open Finset

namespace Point

variable {ι : Type} [Fintype ι]

/-- The mean of points with given weights. -/
noncomputable def mean (weight : ι → ℝ) (p : ι → Point ℝ) : Point ℝ :=
  ⟨∑ i, weight i * (p i).x, ∑ i, weight i * (p i).y⟩

/-- The map keeps the ratio in which a point divides a segment, also beyond the ends. -/
def Affine (f : Point ℝ → Point ℝ) : Prop :=
  ∀ (s : Segment ℝ) (t : ℝ), f (s.at t) = Segment.at ⟨f s.start, f s.stop⟩ t

variable {weight : ι → ℝ} {p : ι → Point ℝ}

theorem mean_reindex {κ : Type} [Fintype κ] (e : κ ≃ ι) (weight : ι → ℝ) (p : ι → Point ℝ) :
    mean (weight ∘ e) (p ∘ e) = mean weight p :=
  congrArg₂ mk (e.sum_comp fun i => weight i * (p i).x) (e.sum_comp fun i => weight i * (p i).y)

/-- The mean of numbers between two bounds is between them. -/
theorem sum_mem_Icc (convex : weight ∈ stdSimplex ℝ ι) {value : ι → ℝ} {low high : ℝ}
    (within : ∀ i, low ≤ value i ∧ value i ≤ high) :
    low ≤ ∑ i, weight i * value i ∧ ∑ i, weight i * value i ≤ high := by
  obtain ⟨nonneg, sum⟩ := convex
  exact (convex_Icc low high).sum_mem (fun i _ => nonneg i) sum fun i _ => within i

theorem contains_mean (convex : weight ∈ stdSimplex ℝ ι) {b : Box ℝ}
    (inside : ∀ i, b.contains (p i) = true) : b.contains (mean weight p) = true := by
  simp only [Box.contains_iff] at inside ⊢
  exact ⟨sum_mem_Icc convex fun i => (inside i).1, sum_mem_Icc convex fun i => (inside i).2⟩

/-- The parameter of a mean on a line is the mean of the parameters. -/
theorem mean_at (convex : weight ∈ stdSimplex ℝ ι) (s : Segment ℝ) (t : ι → ℝ) :
    mean weight (fun i => s.at (t i)) = s.at (∑ i, weight i * t i) := by
  have along (a d : ℝ) : ∑ i, weight i * (a + t i * d) = a + (∑ i, weight i * t i) * d := by
    simp only [mul_add, sum_add_distrib, ← sum_mul, convex.2, one_mul, ← mul_assoc]
  exact congrArg₂ mk (along _ _) (along _ _)

theorem holds_mean (convex : weight ∈ stdSimplex ℝ ι) {s : Segment ℝ}
    (inside : ∀ i, s.Holds (p i)) : s.Holds (mean weight p) := by
  choose t part place using inside
  refine ⟨∑ i, weight i * t i, sum_mem_Icc convex part, ?_⟩
  rw [← mean_at convex, funext place]

/-- An affine map is known from the images of the origin and of one point on either axis. -/
theorem Affine.exists_coordinates {f : Point ℝ → Point ℝ} (affine : Affine f) :
    ∃ o u v : Point ℝ, ∀ q, f q = ⟨o.x + q.x * u.x + q.y * v.x, o.y + q.x * u.y + q.y * v.y⟩ := by
  have across (x : ℝ) : f ⟨x, 0⟩ = Segment.at ⟨f ⟨0, 0⟩, f ⟨1, 0⟩⟩ x := by
    rw [← affine ⟨⟨0, 0⟩, ⟨1, 0⟩⟩ x, Segment.at]
    norm_num
  have down (y : ℝ) : f ⟨0, y⟩ = Segment.at ⟨f ⟨0, 0⟩, f ⟨0, 1⟩⟩ y := by
    rw [← affine ⟨⟨0, 0⟩, ⟨0, 1⟩⟩ y, Segment.at]
    norm_num
  have middle (q : Point ℝ) : f q = Segment.at ⟨f ⟨2 * q.x, 0⟩, f ⟨0, 2 * q.y⟩⟩ (1 / 2) := by
    rw [← affine ⟨⟨2 * q.x, 0⟩, ⟨0, 2 * q.y⟩⟩ (1 / 2), Segment.at]
    congr 1
    cases q
    rw [mk.injEq]
    constructor <;> simp only <;> ring
  refine ⟨f ⟨0, 0⟩, f ⟨1, 0⟩ - f ⟨0, 0⟩, f ⟨0, 1⟩ - f ⟨0, 0⟩, fun q => ?_⟩
  rw [middle, across (2 * q.x), down (2 * q.y)]
  simp only [Segment.at, exact_sub, mk.injEq]
  constructor <;> ring

theorem Affine.map_mean {f : Point ℝ → Point ℝ} (affine : Affine f)
    (convex : weight ∈ stdSimplex ℝ ι) : f (mean weight p) = mean weight (f ∘ p) := by
  obtain ⟨o, u, v, coordinates⟩ := affine.exists_coordinates
  have along (a b c : ℝ) : a + (∑ i, weight i * (p i).x) * b + (∑ i, weight i * (p i).y) * c =
      ∑ i, weight i * (a + (p i).x * b + (p i).y * c) := by
    simp only [mul_add, sum_add_distrib, ← sum_mul, convex.2, one_mul, ← mul_assoc]
  simp only [mean, Function.comp_apply, coordinates, along]

end Point

section Weights

/-- The weight of a control point at a parameter. -/
noncomputable def bezierWeight (degree : ℕ) (t : ℝ) (i : Fin (degree + 1)) : ℝ :=
  (bernsteinPolynomial ℝ degree i).eval t

variable {degree : ℕ} {t : ℝ}

theorem bezierWeight_eq (degree : ℕ) (t : ℝ) (i : Fin (degree + 1)) :
    bezierWeight degree t i = degree.choose i * t ^ (i : ℕ) * (1 - t) ^ (degree - i) := by
  simp [bezierWeight, bernsteinPolynomial]

theorem bezierWeight_mem (part : Part t) :
    bezierWeight degree t ∈ stdSimplex ℝ (Fin (degree + 1)) := by
  obtain ⟨low, high⟩ := part
  constructor
  · intro i
    have rest : 0 ≤ 1 - t := by linarith
    rw [bezierWeight_eq]
    positivity
  · have total := congrArg (Polynomial.eval t) (bernsteinPolynomial.sum ℝ degree)
    rw [Polynomial.eval_finsetSum, Polynomial.eval_one] at total
    exact (Fin.sum_univ_eq_sum_range (fun i => (bernsteinPolynomial ℝ degree i).eval t) _).trans
      total

/-- From the other end the weights come in reverse order. -/
theorem bezierWeight_rev (t : ℝ) (i : Fin (degree + 1)) :
    bezierWeight degree t i.rev = bezierWeight degree (1 - t) i := by
  have within : (i : ℕ) ≤ degree := Nat.le_of_lt_succ i.isLt
  have turned := congrArg (Polynomial.eval t) (bernsteinPolynomial.flip ℝ degree i within)
  rw [Polynomial.eval_comp] at turned
  rw [bezierWeight, bezierWeight, Fin.val_rev, Nat.add_sub_add_right, ← turned]
  simp

end Weights

namespace Curve

variable {κ : Type} [Curve κ ℝ] {degree : ℕ}

/-- The curve starts at its first control point and ends at its last one, and its points are means
of all of them. -/
structure Controlled (curve : κ) (control : Fin (degree + 1) → Point ℝ) : Prop where
  start : Curve.start curve = control 0
  stop : Curve.stop curve = control (Fin.last degree)
  pointAt (t : ℝ) : Curve.pointAt curve t = Point.mean (bezierWeight degree t) control

/-- The parameter of a vertex. -/
noncomputable def parameter (steps number : ℕ) : ℝ := number / steps

theorem part_parameter {steps number : ℕ} (within : number ≤ steps) :
    Part (parameter steps number) :=
  ⟨by unfold parameter; positivity, div_le_one_of_le₀ (Nat.cast_le.mpr within) (Nat.cast_nonneg _)⟩

theorem mean_first (control : Fin (degree + 1) → Point ℝ) :
    Point.mean (bezierWeight degree 0) control = control 0 := by
  have weight (i : Fin (degree + 1)) : bezierWeight degree 0 i = if i = 0 then 1 else 0 := by
    rw [bezierWeight, bernsteinPolynomial.eval_at_0]
    simp only [Fin.val_eq_zero_iff]
  simp [Point.mean, weight]

theorem mean_last (control : Fin (degree + 1) → Point ℝ) :
    Point.mean (bezierWeight degree 1) control = control (Fin.last degree) := by
  have weight (i : Fin (degree + 1)) :
      bezierWeight degree 1 i = if i = Fin.last degree then 1 else 0 := by
    rw [bezierWeight, bernsteinPolynomial.eval_at_1]
    simp only [Fin.ext_iff, Fin.val_last]
  simp [Point.mean, weight]

theorem Controlled.vertex_eq {curve : κ} {control : Fin (degree + 1) → Point ℝ}
    (controlled : Controlled curve control) {steps number : ℕ} (positive : 0 < steps) :
    vertex curve steps number =
      Point.mean (bezierWeight degree (parameter steps number)) control := by
  unfold vertex
  split
  · rename_i first
    rw [first, parameter, Nat.cast_zero, zero_div, mean_first, controlled.start]
  · split
    · rename_i last
      have whole : (steps : ℝ) ≠ 0 := Nat.cast_ne_zero.mpr positive.ne'
      rw [last, parameter, div_self whole, mean_last, controlled.stop]
    · exact controlled.pointAt _

theorem Controlled.side_eq {curve : κ} {control : Fin (degree + 1) → Point ℝ}
    (controlled : Controlled curve control) {steps number : ℕ} (positive : 0 < steps) :
    side curve steps number =
      ⟨Point.mean (bezierWeight degree (parameter steps number)) control,
        Point.mean (bezierWeight degree (parameter steps (number + 1))) control⟩ := by
  rw [side, controlled.vertex_eq positive, controlled.vertex_eq positive]

/-- What the flattenings of curves owe to the control points. -/
structure FollowsControls (control : κ → Fin (degree + 1) → Point ℝ) : Prop where
  /-- The vertices are means whose weights do not depend on the curve. -/
  means : ∃ weight : ℕ → ℕ → Fin (degree + 1) → ℝ,
    (∀ count number, number ≤ count → weight count number ∈ stdSimplex ℝ (Fin (degree + 1))) ∧
    ∀ (curve : κ) (steps : ℕ), (flatten curve steps).toList =
      (List.range (max steps 1)).map fun number =>
        ⟨Point.mean (weight (max steps 1) number) (control curve),
          Point.mean (weight (max steps 1) (number + 1)) (control curve)⟩
  boxed (curve : κ) (steps : ℕ) (b : Box ℝ) : (∀ i, b.contains (control curve i) = true) →
    ∀ s ∈ (flatten curve steps).toList, b.contains s.start = true ∧ b.contains s.stop = true
  straight (curve : κ) (steps : ℕ) (line : Segment ℝ) : (∀ i, line.Holds (control curve i)) →
    ∀ s ∈ (flatten curve steps).toList, ∀ p, s.Holds p → line.Holds p
  mapped (curve image : κ) (steps : ℕ) (f : Point ℝ → Point ℝ) : Point.Affine f →
    (∀ i, control image i = f (control curve i)) →
    (flatten image steps).toList =
      (flatten curve steps).toList.map fun s => ⟨f s.start, f s.stop⟩
  turned (curve other : κ) (steps : ℕ) : (∀ i, control other i = control curve i.rev) →
    (flatten other steps).toList = ((flatten curve steps).toList.map Segment.reversed).reverse

/-- A segment with both ends on another one lies on it. -/
theorem holds_of_ends {line s : Segment ℝ} (start : line.Holds s.start) (stop : line.Holds s.stop)
    {p : Point ℝ} (held : s.Holds p) : line.Holds p := by
  obtain ⟨t, part, place⟩ := start
  obtain ⟨u, part', place'⟩ := stop
  obtain ⟨v, between, rfl⟩ := held
  have within := Segment.between_of_part (a := t) (b := u) between
  refine ⟨t + v * (u - t), ⟨?_, ?_⟩, ?_⟩
  · exact (le_min part.1 part'.1).trans within.1
  · exact within.2.trans (max_le part.2 part'.2)
  · rw [← Segment.at_between, ← place, ← place']

theorem Controlled.vertex_rev {curve other : κ} {control : Fin (degree + 1) → Point ℝ}
    (controlled : Controlled curve control) (opposite : Controlled other (control ∘ Fin.rev))
    {steps number : ℕ} (positive : 0 < steps) (within : number ≤ steps) :
    vertex other steps number = vertex curve steps (steps - number) := by
  have whole : (steps : ℝ) ≠ 0 := Nat.cast_ne_zero.mpr positive.ne'
  have rest : parameter steps number = 1 - parameter steps (steps - number) := by
    rw [parameter, parameter, Nat.cast_sub within, sub_div, div_self whole, sub_sub_cancel]
  have weights : bezierWeight degree (parameter steps number) =
      bezierWeight degree (parameter steps (steps - number)) ∘ Fin.revPerm := by
    funext i
    rw [rest, ← bezierWeight_rev]
    rfl
  rw [controlled.vertex_eq positive, opposite.vertex_eq positive, weights]
  exact Point.mean_reindex Fin.revPerm _ control

theorem followsControls {control : κ → Fin (degree + 1) → Point ℝ}
    (controlled : ∀ curve, Controlled curve (control curve)) : FollowsControls control := by
  have convex {steps number : ℕ} (within : number ≤ steps) :
      bezierWeight degree (parameter steps number) ∈ stdSimplex ℝ (Fin (degree + 1)) :=
    bezierWeight_mem (part_parameter within)
  have positive (steps : ℕ) : 0 < max steps 1 := by omega
  constructor
  case means =>
    refine ⟨fun count number => bezierWeight degree (parameter count number),
      fun count number within => convex within, fun curve steps => ?_⟩
    rw [toList_flatten_eq_sides]
    exact List.map_congr_left fun number _ => (controlled curve).side_eq (positive steps)
  case boxed =>
    intro curve steps b inside s member
    obtain ⟨number, within, rfl⟩ := exists_side_of_mem member
    rw [(controlled curve).side_eq (positive steps)]
    exact ⟨Point.contains_mean (convex within.le) inside,
      Point.contains_mean (convex within) inside⟩
  case straight =>
    intro curve steps line inside s member p held
    obtain ⟨number, within, rfl⟩ := exists_side_of_mem member
    rw [(controlled curve).side_eq (positive steps)] at held
    exact holds_of_ends (Point.holds_mean (convex within.le) inside)
      (Point.holds_mean (convex within) inside) held
  case mapped =>
    intro curve image steps f affine images
    have vertex_image {number : ℕ} (within : number ≤ max steps 1) :
        vertex image (max steps 1) number = f (vertex curve (max steps 1) number) := by
      rw [(controlled curve).vertex_eq (positive steps), affine.map_mean (convex within),
        (controlled image).vertex_eq (positive steps)]
      exact congrArg _ (funext images)
    rw [toList_flatten_eq_sides, toList_flatten_eq_sides, List.map_map]
    refine List.map_congr_left fun number member => ?_
    have within : number < max steps 1 := List.mem_range.mp member
    rw [side, vertex_image within.le, vertex_image within]
    rfl
  case turned =>
    intro curve other steps images
    have opposite : Controlled other (control curve ∘ Fin.rev) := by
      have points : control other = control curve ∘ Fin.rev := funext images
      exact points ▸ controlled other
    have vertex_rev {number : ℕ} (within : number ≤ max steps 1) :=
      (controlled curve).vertex_rev opposite (positive steps) within
    rw [toList_flatten_eq_sides, toList_flatten_eq_sides, List.map_map, ← List.map_reverse,
      List.range_eq_range', List.reverse_range', ← List.range_eq_range', List.map_map]
    refine List.map_congr_left fun number member => ?_
    have within : number < max steps 1 := List.mem_range.mp member
    have before : 0 + max steps 1 - 1 - number = max steps 1 - (number + 1) := by omega
    have next : max steps 1 - (number + 1) + 1 = max steps 1 - number := by omega
    simp only [side, Function.comp_apply, Segment.reversed, vertex_rev within.le, vertex_rev within,
      before, next]

end Curve

/-- The control points in order. -/
def Quadratic.points {α : Type} (c : Quadratic α) : Fin 3 → Point α :=
  ![c.start, c.control, c.stop]

/-- The control points in order. -/
def Cubic.points {α : Type} (c : Cubic α) : Fin 4 → Point α :=
  ![c.start, c.control₁, c.control₂, c.stop]

theorem Quadratic.controlled (c : Quadratic ℝ) : Curve.Controlled c c.points where
  start := rfl
  stop := rfl
  pointAt t := by
    have mean : Point.mean (bezierWeight 2 t : Fin 3 → ℝ) c.points =
        ⟨(1 - t) ^ 2 * c.start.x + 2 * t * (1 - t) * c.control.x + t ^ 2 * c.stop.x,
          (1 - t) ^ 2 * c.start.y + 2 * t * (1 - t) * c.control.y + t ^ 2 * c.stop.y⟩ := by
      simp [Point.mean, Fin.sum_univ_three, bezierWeight_eq, points]
    change c.pointAt t = Point.mean (bezierWeight 2 t : Fin 3 → ℝ) c.points
    simp only [mean, pointAt, Point.scale, Point.exact_add, Scalar.exact_ofNat, Point.mk.injEq]
    push_cast
    constructor <;> ring

theorem Cubic.controlled (c : Cubic ℝ) : Curve.Controlled c c.points where
  start := rfl
  stop := rfl
  pointAt t := by
    have mean : Point.mean (bezierWeight 3 t : Fin 4 → ℝ) c.points =
        ⟨(1 - t) ^ 3 * c.start.x + 3 * t * (1 - t) ^ 2 * c.control₁.x +
            3 * t ^ 2 * (1 - t) * c.control₂.x + t ^ 3 * c.stop.x,
          (1 - t) ^ 3 * c.start.y + 3 * t * (1 - t) ^ 2 * c.control₁.y +
            3 * t ^ 2 * (1 - t) * c.control₂.y + t ^ 3 * c.stop.y⟩ := by
      simp [Point.mean, Fin.sum_univ_four, bezierWeight_eq, points]
    change c.pointAt t = Point.mean (bezierWeight 3 t : Fin 4 → ℝ) c.points
    simp only [mean, pointAt, Point.scale, Point.exact_add, Scalar.exact_ofNat, Point.mk.injEq]
    push_cast
    constructor <;> ring

/-- In exact arithmetic the vertices of a flattened curve are means of the control points, with
weights that are not negative, add up to one and are the same for all curves of the kind. So the
flattening stays in every box that holds the control points, and on every segment; an affine map of
the control points maps it vertex by vertex; and from the other end it is the same in reverse. -/
theorem Curve.flatten_follows_controls :
    FollowsControls (Quadratic.points (α := ℝ)) ∧ FollowsControls (Cubic.points (α := ℝ)) :=
  ⟨followsControls Quadratic.controlled, followsControls Cubic.controlled⟩

/-- A curve that goes out and back along a segment stays on it. With its coordinates exchanged it is
flattened into the same segments with their coordinates exchanged. -/
theorem Curve.flatten_outAndBack :
    let out : Quadratic ℝ := ⟨⟨0, 0⟩, ⟨4, 2⟩, ⟨0, 0⟩⟩
    let line : Segment ℝ := ⟨⟨0, 0⟩, ⟨4, 2⟩⟩
    let exchange : Point ℝ → Point ℝ := fun p => ⟨p.y, p.x⟩
    (∀ i, line.Holds (out.points i)) ∧
      (∀ s ∈ (flatten out 5).toList, ∀ p, s.Holds p → line.Holds p) ∧
      Point.Affine exchange ∧
      (flatten (⟨⟨0, 0⟩, ⟨2, 4⟩, ⟨0, 0⟩⟩ : Quadratic ℝ) 5).toList =
        (flatten out 5).toList.map fun s => ⟨exchange s.start, exchange s.stop⟩ := by
  intro out line exchange
  have follows := flatten_follows_controls.1
  have on_line (i : Fin 3) : line.Holds (out.points i) := by
    fin_cases i
    · exact Segment.holds_start line
    · exact Segment.holds_stop line
    · exact Segment.holds_start line
  have affine : Point.Affine exchange := fun s t => rfl
  refine ⟨on_line, follows.straight out 5 line on_line, affine,
    follows.mapped out _ 5 exchange affine fun i => ?_⟩
  fin_cases i <;> rfl

end VectorPaint
