import Mathlib
import VectorPaint.Drawing.Element
import VectorPaint.Proofs.PathData.Finite

/-!
Where outlines can leave the finite numbers. All numbers that an element is read with are finite.
Lines through points are drawn as they are given and so are finite; a rectangle adds its size to its
corner, an ellipse is sampled, and path data has commands of its own. An outline is finite just if
what is computed for it is, and nothing keeps sums that are too great from being drawn.
-/
namespace VectorPaint

open PathData

theorem PathData.finite_of_trimmedLength {text : List Char} {x : Float}
    (done : trimmedLength text = .ok x) : x.isFinite = true := by
  unfold trimmedLength at done
  split at done
  · cases done
  · rename_i read
    split at done
    · cases done
      exact finite_of_number read
    · cases done

theorem PathData.finite_of_numberList {text : List Char} {xs : List Float}
    (done : numberList text = .ok xs) : ∀ x ∈ xs, x.isFinite = true := by
  fun_induction numberList text generalizing xs with
  | case1 =>
    cases done
    exact List.forall_mem_nil _
  | case2 => cases done
  | case3 => cases done
  | case4 text c rest separated value left read more later ih =>
    cases done
    exact List.forall_mem_cons.mpr ⟨finite_of_number read, ih later⟩

theorem exists_of_bind_eq_ok {ε β γ : Type} {first : Except ε β} {next : β → Except ε γ} {c : γ}
    (done : first >>= next = .ok c) : ∃ b, first = .ok b ∧ next b = .ok c := by
  cases first with
  | error cause => cases done
  | ok b => exact ⟨b, rfl, done⟩

theorem eq_ok_of_mapError {ε ε' β : Type} {done : Except ε β} {f : ε → ε'} {b : β}
    (mapped : done.mapError f = .ok b) : done = .ok b := by
  cases done with
  | error cause => cases mapped
  | ok c =>
    cases mapped
    rfl

namespace Element

variable {attributes : Attributes} {tag name : String} {options : Options} {o : Outline Float}

theorem finite_of_number {x : Float} (done : number attributes tag name = .ok x) :
    x.isFinite = true := by
  obtain ⟨value, -, done⟩ := exists_of_bind_eq_ok done
  exact finite_of_trimmedLength (eq_ok_of_mapError (eq_ok_of_mapError done))

theorem finite_of_size {x : Float} (done : size attributes tag name = .ok x) :
    x.isFinite = true := by
  obtain ⟨value, -, done⟩ := exists_of_bind_eq_ok done
  obtain ⟨y, read, done⟩ := exists_of_bind_eq_ok done
  split at done
  · cases done
  · cases done
    exact finite_of_number read

/-- The coordinates of points. -/
def coordinates (points : List (Point Float)) : List Float := points.flatMap fun p => [p.x, p.y]

theorem coordinates_of_pairUp {numbers : List Float} {points : List (Point Float)}
    (paired : pairUp numbers = some points) : coordinates points = numbers := by
  fun_induction pairUp numbers generalizing points with
  | case1 =>
    cases paired
    rfl
  | case2 => cases paired
  | case3 x y rest ih =>
    obtain ⟨more, later, rfl⟩ := Option.map_eq_some_iff.mp paired
    rw [← ih later]
    rfl

theorem finite_of_points {found : List (Point Float)}
    (done : points attributes tag = .ok found) : ∀ x ∈ coordinates found, x.isFinite = true := by
  obtain ⟨value, -, done⟩ := exists_of_bind_eq_ok done
  split at done
  · cases done
  · rename_i numbers read
    split at done
    · rename_i paired
      cases done
      rw [coordinates_of_pairUp paired]
      exact finite_of_numberList (eq_ok_of_mapError read)
    · cases done

/-- The numbers that an element is read with; path data has its own. -/
def numbers : Element → List Float
  | rect x y width height => [x, y, width, height]
  | circle center r => [center.x, center.y, r]
  | ellipse center rx ry => [center.x, center.y, rx, ry]
  | line segment => coordinates [segment.start, segment.stop]
  | polyline points | polygon points => coordinates points
  | path _ => []

theorem finite_of_read {element : Element} (done : read tag attributes = .ok (some element)) :
    ∀ x ∈ element.numbers, x.isFinite = true := by
  unfold read at done
  split at done
  · obtain ⟨x, readX, done⟩ := exists_of_bind_eq_ok done
    obtain ⟨y, readY, done⟩ := exists_of_bind_eq_ok done
    obtain ⟨width, readWidth, done⟩ := exists_of_bind_eq_ok done
    obtain ⟨height, readHeight, done⟩ := exists_of_bind_eq_ok done
    cases done
    simp [numbers, finite_of_number readX, finite_of_number readY, finite_of_size readWidth,
      finite_of_size readHeight]
  · obtain ⟨cx, readX, done⟩ := exists_of_bind_eq_ok done
    obtain ⟨cy, readY, done⟩ := exists_of_bind_eq_ok done
    obtain ⟨r, readR, done⟩ := exists_of_bind_eq_ok done
    cases done
    simp [numbers, finite_of_number readX, finite_of_number readY, finite_of_size readR]
  · obtain ⟨cx, readX, done⟩ := exists_of_bind_eq_ok done
    obtain ⟨cy, readY, done⟩ := exists_of_bind_eq_ok done
    obtain ⟨rx, readRx, done⟩ := exists_of_bind_eq_ok done
    obtain ⟨ry, readRy, done⟩ := exists_of_bind_eq_ok done
    cases done
    simp [numbers, finite_of_number readX, finite_of_number readY, finite_of_size readRx,
      finite_of_size readRy]
  · obtain ⟨x₁, readX, done⟩ := exists_of_bind_eq_ok done
    obtain ⟨y₁, readY, done⟩ := exists_of_bind_eq_ok done
    obtain ⟨x₂, readX', done⟩ := exists_of_bind_eq_ok done
    obtain ⟨y₂, readY', done⟩ := exists_of_bind_eq_ok done
    cases done
    simp [numbers, coordinates, finite_of_number readX, finite_of_number readY,
      finite_of_number readX', finite_of_number readY']
  · obtain ⟨found, readPoints, done⟩ := exists_of_bind_eq_ok done
    cases done
    exact finite_of_points readPoints
  · obtain ⟨found, readPoints, done⟩ := exists_of_bind_eq_ok done
    cases done
    exact finite_of_points readPoints
  · obtain ⟨data, -, done⟩ := exists_of_bind_eq_ok done
    cases done
    exact List.forall_mem_nil _
  · cases done

/-- The points of a sampled ellipse, the first one among them. -/
def ellipsePoints (options : Options) (center : Point Float) (rx ry : Float) :
    List (Point Float) :=
  let arc := Arc.ellipse center rx ry
  Curve.start arc ::
    Curve.samples arc (max (max options.circleSegments leastCircleSegments) 3)

/-- The points that are computed for the outline of an element. -/
def computed (options : Options) : Element → List (Point Float)
  | rect x y width height =>
    if width == 0 || height == 0 then [] else [⟨x + width, y + height⟩]
  | circle center r => if r == 0 then [] else ellipsePoints options center r r
  | ellipse center rx ry =>
    if rx == 0 || ry == 0 then [] else ellipsePoints options center rx ry
  | line _ | polyline _ | polygon _ => []
  | path data => pointsReached options.curveSegments data

theorem finite_coordinates_iff {points : List (Point Float)} :
    (∀ x ∈ coordinates points, x.isFinite = true) ↔ ∀ p ∈ points, p.isFinite = true := by
  induction points with
  | nil => simp [coordinates]
  | cons p rest ih =>
    have split : coordinates (p :: rest) = [p.x, p.y] ++ coordinates rest := rfl
    rw [split, List.forall_mem_append, ih, List.forall_mem_cons (a := p)]
    exact and_congr_left' (Point.isFinite_iff (p := p)).symm

/-- Without extent nothing is drawn and nothing is computed. -/
theorem finite_extent_iff {without : Bool} {full : Outline Float} {points : List (Point Float)}
    (drawn : (if without then .ok Outline.empty else .ok full : Except ElementError _) = .ok o)
    (exactly : (∀ s ∈ full.segments, s.isFinite = true) ↔ ∀ p ∈ points, p.isFinite = true) :
    (∀ s ∈ o.segments, s.isFinite = true) ↔
      ∀ p ∈ if without then [] else points, p.isFinite = true := by
  cases without with
  | false =>
    cases drawn
    exact exactly
  | true =>
    cases drawn
    have nothing : ∀ s ∈ (Outline.empty : Outline Float).segments, s.isFinite = true := by
      simp [Outline.empty, Outline.segments]
    exact iff_of_true nothing (List.forall_mem_nil _)

section Outlines

variable {pen : Pen Float} (blank : pen.segments = [])
include blank

/-- The corner opposite to the one that is given has both computed coordinates. -/
theorem finite_rect_iff {x y width height : Float} (acrossFinite : x.isFinite = true)
    (downFinite : y.isFinite = true) :
    (∀ s ∈ ((pen.moveTo ⟨x, y⟩).lineTo ⟨x + width, y⟩ |>.lineTo ⟨x + width, y + height⟩
        |>.lineTo ⟨x, y + height⟩ |>.close.outline).segments, s.isFinite = true) ↔
      ∀ p ∈ [(⟨x + width, y + height⟩ : Point Float)], p.isFinite = true := by
  have ring := pen.segments_ring ⟨x, y⟩ [⟨x + width, y⟩, ⟨x + width, y + height⟩, ⟨x, y + height⟩]
  simp only [List.foldl_cons, List.foldl_nil, blank, List.nil_append] at ring
  rw [Pen.segments_outline, ring, finite_ring_iff]
  simp [Point.isFinite, Scalar.isFinite, acrossFinite, downFinite]

theorem finite_ellipse_iff (options : Options) (center : Point Float) (rx ry : Float) :
    (∀ s ∈ (pen.ellipse center rx ry
        (max options.circleSegments leastCircleSegments)).outline.segments, s.isFinite = true) ↔
      ∀ p ∈ ellipsePoints options center rx ry, p.isFinite = true := by
  rw [Pen.segments_outline, Pen.segments_ellipse, blank, List.nil_append, finite_ring_iff]
  rfl

/-- Lines through points compute nothing, and neither does the line that closes them. -/
theorem finite_drawThrough {points : List (Point Float)}
    (given : ∀ p ∈ points, p.isFinite = true) (rests : pen.pending = none) :
    (∀ s ∈ (drawThrough pen points).outline.segments, s.isFinite = true) ∧
      ∀ s ∈ (drawThrough pen points).close.outline.segments, s.isFinite = true := by
  rw [Pen.segments_outline, Pen.segments_outline]
  cases points with
  | nil =>
    rw [drawThrough, Pen.segments_close, rests, blank]
    exact ⟨List.forall_mem_nil _, List.forall_mem_nil _⟩
  | cons first rest =>
    obtain ⟨here, others⟩ := List.forall_mem_cons.mp given
    rw [drawThrough, Pen.segments_ring, Pen.segments_lines, Pen.segments_moveTo, blank,
      List.nil_append, List.nil_append]
    exact ⟨finite_through_iff.mpr (finite_touched here others), finite_ring_iff.mpr given⟩

end Outlines

/-- The segments of an element are finite just if the points that are computed for it are. -/
theorem finite_outline_iff {element : Element} (written : ∀ x ∈ element.numbers, x.isFinite = true)
    (drawn : element.outline options = .ok o) :
    (∀ s ∈ o.segments, s.isFinite = true) ↔
      ∀ p ∈ element.computed options, p.isFinite = true := by
  have blank : (Pen.new options.curveSegments : Pen Float).segments = [] := Pen.segments_new _
  cases element with
  | rect x y width height =>
    have left := written x (by simp [numbers])
    have top := written y (by simp [numbers])
    exact finite_extent_iff drawn (finite_rect_iff blank left top)
  | circle center r =>
    exact finite_extent_iff drawn (finite_ellipse_iff blank options center r r)
  | ellipse center rx ry =>
    exact finite_extent_iff drawn (finite_ellipse_iff blank options center rx ry)
  | line segment =>
    cases drawn
    have given := finite_coordinates_iff.mp written
    exact iff_of_true (finite_drawThrough blank given rfl).1 (List.forall_mem_nil _)
  | polyline points =>
    cases drawn
    have given := finite_coordinates_iff.mp written
    exact iff_of_true (finite_drawThrough blank given rfl).1 (List.forall_mem_nil _)
  | polygon points =>
    cases drawn
    have given := finite_coordinates_iff.mp written
    exact iff_of_true (finite_drawThrough blank given rfl).2 (List.forall_mem_nil _)
  | path data => exact PathData.finite_outline_iff (eq_ok_of_mapError drawn)

/-- Every rectangle has an outline. -/
theorem exists_outline_rect (options : Options) (x y width height : Float) :
    ∃ o, (rect x y width height).outline options = .ok o := by
  unfold outline
  simp only
  split <;> exact ⟨_, rfl⟩

deriving instance DecidableEq for Segment, Element

/-- All numbers that are read are finite, and the segments of an outline are finite just if the
points are that are computed for it. That a text or an element was accepted does not make them so;
where nothing is computed, they are. -/
theorem segments_finite_iff (options : Options) :
    (∀ curveSteps text o, PathData.outline curveSteps text = .ok o →
      (∀ group ∈ (groups none text.toList).1, ∀ x ∈ group.operands.numbers, x.isFinite = true) ∧
      ((∀ s ∈ o.segments, s.isFinite = true) ↔
        ∀ p ∈ pointsReached curveSteps text, p.isFinite = true) ∧
      ((∀ group ∈ (groups none text.toList).1, group.isPlain = true) →
        ∀ s ∈ o.segments, s.isFinite = true)) ∧
      ∀ tag attributes element o, read tag attributes = .ok (some element) →
        element.outline options = .ok o →
        (∀ x ∈ element.numbers, x.isFinite = true) ∧
        ((∀ s ∈ o.segments, s.isFinite = true) ↔
          ∀ p ∈ element.computed options, p.isFinite = true) := by
  constructor
  · intro curveSteps text o done
    have exactly := PathData.finite_outline_iff done
    exact ⟨finite_of_groups none text.toList, exactly,
      fun plain => exactly.mpr (finite_pointsReached_of_plain curveSteps plain)⟩
  · intro tag attributes element o done drawn
    have written := finite_of_read done
    exact ⟨written, finite_outline_iff written drawn⟩

/-- Its line is as long as its start is far from the origin, and together that is too far. -/
def farText : String := "M1e308 0h1e308"

/-- Its corners are too far apart in the same manner. -/
def farRect : Attributes :=
  .ofPairs [("x", "1e308"), ("y", "0"), ("width", "1e308"), ("height", "1")]

/-- Both are accepted and drawn beyond all numbers. -/
theorem segments_farText :
    (∃ o, PathData.outline 24 farText = .ok o ∧ ∃ s ∈ o.segments, s.isFinite = false) ∧
      ∃ element o, read "rect" farRect = .ok (some element) ∧ element.outline {} = .ok o ∧
        ∃ s ∈ o.segments, s.isFinite = false := by
  constructor
  · refine ⟨_, outline_eq_ok.mpr ⟨by decide +kernel, rfl⟩, ?_⟩
    decide +kernel
  · have corners : read "rect" farRect = .ok (some (.rect 1e308 0 1e308 1)) := by decide +kernel
    obtain ⟨o, drawn⟩ := exists_outline_rect {} 1e308 0 1e308 1
    have far : ¬ ∀ p ∈ (rect 1e308 0 1e308 1).computed {}, p.isFinite = true := by decide +kernel
    have segments := mt (finite_outline_iff (finite_of_read corners) drawn).mp far
    refine ⟨_, o, corners, drawn, ?_⟩
    simpa only [not_forall, Bool.not_eq_true, exists_prop] using segments

/-- It is drawn with absolute lines alone. -/
def plainText : String := "M1 2L3 4H5z"

def nearRect : Attributes :=
  .ofPairs [("x", "1"), ("y", "2"), ("width", "3"), ("height", "4")]

/-- The relative lines of the one text, the absolute ones of the other and the corners of a
rectangle stay among the numbers. -/
theorem segments_loopText :
    (∃ o, PathData.outline 24 loopText = .ok o ∧ ∀ s ∈ o.segments, s.isFinite = true) ∧
      (∃ o, PathData.outline 24 plainText = .ok o ∧
        (∀ group ∈ (groups none plainText.toList).1, group.isPlain = true) ∧
        ∀ s ∈ o.segments, s.isFinite = true) ∧
      ∃ element o, read "rect" nearRect = .ok (some element) ∧ element.outline {} = .ok o ∧
        ∀ s ∈ o.segments, s.isFinite = true := by
  obtain ⟨texts, elements⟩ := segments_finite_iff {}
  have plain : ∀ group ∈ (groups none plainText.toList).1, group.isPlain = true := by
    decide +kernel
  have first : PathData.outline 24 loopText = .ok _ := outline_eq_ok.mpr ⟨by decide +kernel, rfl⟩
  have second : PathData.outline 24 plainText = .ok _ :=
    outline_eq_ok.mpr ⟨by decide +kernel, rfl⟩
  have corners : read "rect" nearRect = .ok (some (.rect 1 2 3 4)) := by decide +kernel
  refine ⟨⟨_, first, (texts 24 _ _ first).2.1.mpr (by decide +kernel)⟩,
    ⟨_, second, plain, (texts 24 _ _ second).2.2 plain⟩, ?_⟩
  exact ⟨_, _, corners, rfl, (elements _ _ _ _ corners rfl).2.mpr (by decide +kernel)⟩

end Element
end VectorPaint
