import VectorPaint.Proofs.Curve.Arc
import VectorPaint.Proofs.Drawing.Finite
import VectorPaint.Proofs.Outline.Drawn
import VectorPaint.Proofs.PathData.Figures

/-!
The points that elements join. The outline of an element is one chain through its points in their
order: closed for rectangles, ellipses and polygons, open for lines. Elements without extent and
empty lists of points have no chain at all, and path data has the outline that it describes.
-/
namespace VectorPaint

variable {α : Type}

/-- A chain joins points in their order, each of them to the next. If it is closed, then it joins
the last of them to the first as well. -/
structure Chain.Joins (c : Chain α) (closed : Bool) (points : List (Point α)) : Prop where
  closed_eq : c.closed = closed
  linked : c.Linked
  start : points.head? = some c.start
  size : c.segments.size = if closed then points.length else points.length - 1
  ends : ∀ i s, c.segments[i]? = some s →
    points[i]? = some s.start ∧ points[(i + 1) % points.length]? = some s.stop

section Through

variable {p q first : Point α} {points rest : List (Point α)} {s : Segment α}

theorem leads_through (p : Point α) (points : List (Point α)) :
    Leads p (through p points) (points.getLastD p) := by
  induction points generalizing p with
  | nil => rfl
  | cons q rest ih =>
    rw [List.getLastD_cons]
    exact ⟨rfl, ih q⟩

theorem ends_of_through {i : Nat} (there : (through p points)[i]? = some s) :
    (p :: points)[i]? = some s.start ∧ points[i]? = some s.stop := by
  induction points generalizing p i with
  | nil => cases there
  | cons q rest ih =>
    cases i with
    | zero =>
      cases there
      exact ⟨rfl, rfl⟩
    | succ i => exact ih there

theorem joins_trail (first : Point α) (rest : List (Point α)) :
    Chain.Joins ⟨first, (through first rest).toArray, false⟩ false (first :: rest) where
  closed_eq := rfl
  linked := Chain.linked_open (leads_through first rest)
  start := rfl
  size := length_through first rest
  ends i s there := by
    rw [List.getElem?_toArray] at there
    obtain ⟨start, stop⟩ := ends_of_through there
    have before : i < rest.length := (List.getElem?_eq_some_iff.mp stop).1
    have next : (i + 1) % (first :: rest).length = i + 1 :=
      Nat.mod_eq_of_lt (Nat.succ_lt_succ before)
    rw [next]
    exact ⟨start, stop⟩

/-- A last line more. -/
theorem toArray_through_concat (p q : Point α) (points : List (Point α)) :
    (through p (points ++ [q])).toArray =
      (through p points).toArray.push ⟨points.getLastD p, q⟩ := by
  rw [through_append, List.push_toArray]
  rfl

theorem joins_ring (first : Point α) (rest : List (Point α)) :
    Chain.Joins ⟨first, (through first (rest ++ [first])).toArray, true⟩ true (first :: rest) where
  closed_eq := rfl
  linked := by
    rw [toArray_through_concat]
    exact Chain.linked_closed (leads_through first rest)
  start := rfl
  size := by
    rw [List.size_toArray, length_through, List.length_append]
    rfl
  ends i s there := by
    rw [List.getElem?_toArray] at there
    obtain ⟨start, stop⟩ := ends_of_through there
    rw [← List.cons_append] at start
    have bound := (List.getElem?_eq_some_iff.mp stop).1
    rw [List.length_append, List.length_singleton] at bound
    refine ⟨(List.getElem?_append_left bound).symm.trans start, ?_⟩
    by_cases last : i = rest.length
    · subst last
      rw [List.getElem?_concat_length] at stop
      rw [List.length_cons, Nat.mod_self]
      exact stop
    · have before : i < rest.length := by omega
      rw [List.getElem?_append_left before] at stop
      rw [List.length_cons, Nat.mod_eq_of_lt (Nat.succ_lt_succ before)]
      exact stop

end Through

namespace Pen

theorem lines_underway (curveSteps : Nat) (position start : Point α)
    (segments : Array (Segment α)) (finished : Array (Chain α)) (points : List (Point α)) :
    points.foldl lineTo (underway curveSteps position start segments finished) =
      underway curveSteps (points.getLastD position) start
        (segments ++ (through position points).toArray) finished := by
  induction points generalizing position segments with
  | nil => simp [through]
  | cons p rest ih =>
    have step : (underway curveSteps position start segments finished).lineTo p =
        underway curveSteps p start (segments ++ #[⟨position, p⟩]) finished := rfl
    rw [List.foldl_cons, step, ih, List.getLastD_cons, Array.append_assoc, through]
    simp

variable [Scalar α]

theorem lines_new (curveSteps : Nat) (first : Point α) (rest : List (Point α)) :
    rest.foldl lineTo ((new curveSteps).moveTo first) =
      underway curveSteps (rest.getLastD first) first (through first rest).toArray #[] := by
  have opened : (new curveSteps : Pen α).moveTo first =
      underway curveSteps first first #[] #[] := rfl
  rw [opened, lines_underway, Array.empty_append]

/-- Lines from a first point on make an open chain. -/
theorem outline_trail (curveSteps : Nat) (first : Point α) (rest : List (Point α)) :
    (rest.foldl lineTo ((new curveSteps).moveTo first)).outline =
      ⟨#[⟨first, (through first rest).toArray, false⟩]⟩ := by
  rw [lines_new]
  rfl

/-- Closed, they make one that leads back to it. -/
theorem outline_ring (curveSteps : Nat) (first : Point α) (rest : List (Point α)) :
    (rest.foldl lineTo ((new curveSteps).moveTo first)).close.outline =
      ⟨#[⟨first, (through first (rest ++ [first])).toArray, true⟩]⟩ := by
  rw [lines_new, toArray_through_concat]
  rfl

end Pen

namespace Element

/-- What elements look like. Zero of either sign is no extent. -/
inductive Depicts (options : Options) : Element → Except ElementError (Outline Float) → Prop
  | rect {x y width height : Float} {c : Chain Float} :
      (width == 0) = false → (height == 0) = false → c.segments.size = 4 →
      c.Joins true [⟨x, y⟩, ⟨x + width, y⟩, ⟨x + width, y + height⟩, ⟨x, y + height⟩] →
      Depicts options (.rect x y width height) (.ok ⟨#[c]⟩)
  | flatRect {x y width height : Float} : (width == 0) = true ∨ (height == 0) = true →
      Depicts options (.rect x y width height) (.ok .empty)
  | circle {center : Point Float} {r : Float} {c : Chain Float} : (r == 0) = false →
      c.segments.size = max options.circleSegments 32 →
      c.start = (Arc.ellipse center r r).pointAt 0 →
      c.Joins true (ellipsePoints options center r r) →
      Depicts options (.circle center r) (.ok ⟨#[c]⟩)
  | flatCircle {center : Point Float} {r : Float} : (r == 0) = true →
      Depicts options (.circle center r) (.ok .empty)
  | ellipse {center : Point Float} {rx ry : Float} {c : Chain Float} :
      (rx == 0) = false → (ry == 0) = false →
      c.segments.size = max options.circleSegments 32 →
      c.start = (Arc.ellipse center rx ry).pointAt 0 →
      c.Joins true (ellipsePoints options center rx ry) →
      Depicts options (.ellipse center rx ry) (.ok ⟨#[c]⟩)
  | flatEllipse {center : Point Float} {rx ry : Float} : (rx == 0) = true ∨ (ry == 0) = true →
      Depicts options (.ellipse center rx ry) (.ok .empty)
  | line {segment : Segment Float} {c : Chain Float} : c.segments.size = 1 →
      c.Joins false [segment.start, segment.stop] →
      Depicts options (.line segment) (.ok ⟨#[c]⟩)
  | polyline {first : Point Float} {rest : List (Point Float)} {c : Chain Float} :
      c.segments.size = rest.length → c.Joins false (first :: rest) →
      Depicts options (.polyline (first :: rest)) (.ok ⟨#[c]⟩)
  | emptyPolyline : Depicts options (.polyline []) (.ok .empty)
  | polygon {first : Point Float} {rest : List (Point Float)} {c : Chain Float} :
      c.segments.size = rest.length + 1 → c.Joins true (first :: rest) →
      Depicts options (.polygon (first :: rest)) (.ok ⟨#[c]⟩)
  | emptyPolygon : Depicts options (.polygon []) (.ok .empty)
  | path {data : String} {o : Outline Float} :
      PathData.outline options.curveSegments data = .ok o → Depicts options (.path data) (.ok o)
  | faultyPath {data : String} {error : PathData.Error} :
      PathData.outline options.curveSegments data = .error error →
      Depicts options (.path data) (.error (.pathData error))

variable {options : Options}

theorem length_ellipsePoints (options : Options) (center : Point Float) (rx ry : Float) :
    (ellipsePoints options center rx ry).length = max options.circleSegments 32 := by
  simp only [ellipsePoints, Curve.samples, leastCircleSegments, List.length_cons,
    List.length_map, List.length_range']
  omega

/-- The chain of an ellipse goes through its samples from the one for the parameter zero on. -/
theorem exists_chain_ellipse (options : Options) (center : Point Float) (rx ry : Float) :
    ∃ c : Chain Float,
      ((Pen.new options.curveSegments).ellipse center rx ry
        (max options.circleSegments leastCircleSegments)).outline = ⟨#[c]⟩ ∧
      c.segments.size = max options.circleSegments 32 ∧
      c.start = (Arc.ellipse center rx ry).pointAt 0 ∧
      c.Joins true (ellipsePoints options center rx ry) := by
  have joins := joins_ring (Curve.start (Arc.ellipse center rx ry))
    (Curve.samples (Arc.ellipse center rx ry)
      (max (max options.circleSegments leastCircleSegments) 3))
  refine ⟨_, Pen.outline_ring .., ?_, rfl, joins⟩
  rw [← length_ellipsePoints options center rx ry]
  exact joins.size

theorem depicts_polyline (options : Options) (points : List (Point Float)) :
    Depicts options (.polyline points) ((polyline points).outline options) := by
  cases points with
  | nil => exact .emptyPolyline
  | cons first rest =>
    have drawn : (polyline (first :: rest)).outline options = .ok _ :=
      congrArg Except.ok (Pen.outline_trail options.curveSegments first rest)
    rw [drawn]
    have joins := joins_trail first rest
    exact .polyline joins.size joins

theorem depicts_polygon (options : Options) (points : List (Point Float)) :
    Depicts options (.polygon points) ((polygon points).outline options) := by
  cases points with
  | nil => exact .emptyPolygon
  | cons first rest =>
    have drawn : (polygon (first :: rest)).outline options = .ok _ :=
      congrArg Except.ok (Pen.outline_ring options.curveSegments first rest)
    rw [drawn]
    have joins := joins_ring first rest
    exact .polygon joins.size joins

theorem depicts_rect (options : Options) (x y width height : Float) :
    Depicts options (.rect x y width height) ((rect x y width height).outline options) := by
  unfold outline
  simp only
  split
  · rename_i flat
    exact .flatRect (Bool.or_eq_true_iff.mp flat)
  · rename_i extended
    obtain ⟨wide, high⟩ := Bool.or_eq_false_iff.mp (Bool.eq_false_iff.mpr extended)
    have ring := Pen.outline_ring options.curveSegments (⟨x, y⟩ : Point Float)
      [⟨x + width, y⟩, ⟨x + width, y + height⟩, ⟨x, y + height⟩]
    simp only [List.foldl_cons, List.foldl_nil] at ring
    rw [ring]
    exact .rect wide high rfl (joins_ring _ _)

theorem depicts_circle (options : Options) (center : Point Float) (r : Float) :
    Depicts options (.circle center r) ((circle center r).outline options) := by
  obtain ⟨c, drawn, size, start, joins⟩ := exists_chain_ellipse options center r r
  simp only [outline, drawn]
  split
  · rename_i flat
    exact .flatCircle flat
  · rename_i extended
    exact .circle (Bool.eq_false_iff.mpr extended) size start joins

theorem depicts_ellipse (options : Options) (center : Point Float) (rx ry : Float) :
    Depicts options (.ellipse center rx ry) ((ellipse center rx ry).outline options) := by
  obtain ⟨c, drawn, size, start, joins⟩ := exists_chain_ellipse options center rx ry
  simp only [outline, drawn]
  split
  · rename_i flat
    exact .flatEllipse (Bool.or_eq_true_iff.mp flat)
  · rename_i extended
    obtain ⟨wide, high⟩ := Bool.or_eq_false_iff.mp (Bool.eq_false_iff.mpr extended)
    exact .ellipse wide high size start joins

theorem depicts_path (options : Options) (data : String) :
    Depicts options (.path data) ((path data).outline options) := by
  simp only [outline]
  cases drawn : PathData.outline options.curveSegments data with
  | error error => exact .faultyPath drawn
  | ok o => exact .path drawn

/-- The outline of an element is the chain through its points: all corners of a rectangle, as many
samples of an ellipse as were asked for but no fewer than 32, or the points that are listed. It ends
where it began, or at the last of the points for a line. There is none without extent or points, and
path data is told as it is read, its error with it. In exact arithmetic the samples go once around
the center, the first of them with the largest `x`. -/
theorem depicts_outline (options : Options) (element : Element) :
    Depicts options element (element.outline options) ∧
      ∀ (center : Point ℝ) (rx ry t : ℝ), (Arc.ellipse center rx ry).pointAt t =
        ⟨center.x + |rx| * Real.cos (2 * Real.pi * t),
          center.y + |ry| * Real.sin (2 * Real.pi * t)⟩ := by
  refine ⟨?_, Arc.exact_ellipse_pointAt⟩
  cases element with
  | rect x y width height => exact depicts_rect options x y width height
  | circle center r => exact depicts_circle options center r
  | ellipse center rx ry => exact depicts_ellipse options center rx ry
  | line segment => exact .line rfl (joins_trail segment.start [segment.stop])
  | polyline points => exact depicts_polyline options points
  | polygon points => exact depicts_polygon options points
  | path data => exact depicts_path options data

end Element
end VectorPaint
