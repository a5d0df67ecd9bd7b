import VectorPaint.Proofs.Outline.PenRun

/-!
What a pen draws as lines through points. A line leads from the position to its target, a curve from
there through its samples to the target, whatever its own ends are, and a close back to where the
chain began. So the segments of a pen are known from the points that it was sent to.
-/
namespace VectorPaint

variable {α : Type}

/-- The segments from a point on through further ones. -/
def through (p : Point α) : List (Point α) → List (Segment α)
  | [] => []
  | q :: rest => ⟨p, q⟩ :: through q rest

theorem length_through (p : Point α) (points : List (Point α)) :
    (through p points).length = points.length := by
  induction points generalizing p with
  | nil => rfl
  | cons q rest ih => exact congrArg (· + 1) (ih q)

theorem through_append (p : Point α) (first second : List (Point α)) :
    through p (first ++ second) = through p first ++ through (first.getLastD p) second := by
  induction first generalizing p with
  | nil => rfl
  | cons q rest ih => rw [List.getLastD_cons, List.cons_append, through, ih, through]; rfl

/-- The end of the last segment may be moved. -/
theorem modify_last_through (p q r : Point α) (points : List (Point α)) :
    (through p (points ++ [q])).modify points.length (fun s => { s with stop := r }) =
      through p (points ++ [r]) := by
  induction points generalizing p with
  | nil => rfl
  | cons first rest ih => exact congrArg (⟨p, first⟩ :: ·) (ih first)

theorem toList_pinEnds {segments : Array (Segment α)} {p q : Point α} {points : List (Point α)}
    (start stop : Point α) (leads : segments.toList = through p (points ++ [q])) :
    (Pen.pinEnds segments start stop).toList = through start (points ++ [stop]) := by
  have started : (segments.modify 0 fun s => { s with start }).toList =
      through start (points ++ [q]) := by
    rw [Array.toList_modify, leads]
    cases points <;> rfl
  have size : (segments.modify 0 fun s => { s with start }).size - 1 = points.length := by
    rw [← Array.length_toList, started, length_through]
    simp
  simp only [Pen.pinEnds, size]
  rw [Array.toList_modify, started]
  exact modify_last_through start q stop points

section Samples

variable {κ : Type} [Scalar α] [Curve κ α]

/-- The points of a curve that divide its range of parameters into equal steps. -/
def Curve.samples (curve : κ) (steps : Nat) : List (Point α) :=
  (List.range' 1 (steps - 1)).map fun step =>
    Curve.pointAt curve (Scalar.ofNat step / Scalar.ofNat steps)

/-- A flattening leads through the samples that it has not reached yet to the end of the curve. -/
theorem Flattening.toList_eq_through (f : Flattening κ α) (unfinished : f.taken < f.steps) :
    f.toList = through f.previous
      ((List.range' (f.taken + 1) (f.steps - (f.taken + 1))).map (fun step =>
        Curve.pointAt f.curve (Scalar.ofNat step / Scalar.ofNat f.steps)) ++
          [Curve.stop f.curve]) := by
  rw [toList_of_unfinished unfinished]
  by_cases last : f.taken + 1 = f.steps
  · rw [toList_of_finished (by simp [last]), vertex, if_pos last, last, Nat.sub_self]
    rfl
  · have onward := toList_eq_through { f with taken := f.taken + 1, previous := f.vertex }
      (by simp only; omega)
    have rest : f.steps - (f.taken + 1) = f.steps - (f.taken + 1 + 1) + 1 := by omega
    rw [onward, rest, List.range'_succ, List.map_cons, List.cons_append, through, vertex,
      if_neg last]
termination_by f.remaining
decreasing_by
  simp only [remaining]
  omega

theorem Curve.toList_flatten (curve : κ) (steps : Nat) :
    (Curve.flatten curve steps).toList =
      through (Curve.start curve) (samples curve (max steps 1) ++ [Curve.stop curve]) :=
  Flattening.toList_eq_through (Curve.flatten curve steps) (by simp only [flatten]; omega)

end Samples

namespace Pen

/-- All that a pen has drawn since it last handed out an outline. -/
def segments (pen : Pen α) : List (Segment α) :=
  pen.finished.toList.flatMap (fun c => c.segments.toList) ++ (pen.pending.getD #[]).toList

theorem segments_lift (pen : Pen α) : pen.lift.segments = pen.segments := by
  obtain ⟨_, _, _, pending, _⟩ := pen
  cases pending <;> simp [segments, lift]

theorem segments_moveTo (pen : Pen α) (p : Point α) : (pen.moveTo p).segments = pen.segments := by
  obtain ⟨_, _, _, pending, _⟩ := pen
  cases pending <;> simp [segments, moveTo, lift]

theorem segments_append (pen : Pen α) (more : Array (Segment α)) (target : Point α) :
    (pen.append more target).segments = pen.segments ++ more.toList := by
  simp [segments, append]

theorem segments_lineTo (pen : Pen α) (p : Point α) :
    (pen.lineTo p).segments = pen.segments ++ through pen.position [p] :=
  pen.segments_append _ p

theorem segments_lines (pen : Pen α) (points : List (Point α)) :
    (points.foldl lineTo pen).segments = pen.segments ++ through pen.position points := by
  induction points generalizing pen with
  | nil => exact (List.append_nil _).symm
  | cons p rest ih =>
    rw [List.foldl_cons, ih, segments_lineTo, List.append_assoc]
    rfl

theorem position_lines (pen : Pen α) (points : List (Point α)) :
    (points.foldl lineTo pen).position = points.getLastD pen.position := by
  induction points generalizing pen with
  | nil => rfl
  | cons p rest ih =>
    rw [List.foldl_cons, ih, List.getLastD_cons]
    rfl

theorem pending_lines {pen : Pen α} (opened : pen.pending.isSome = true)
    (points : List (Point α)) : (points.foldl lineTo pen).pending.isSome = true := by
  induction points generalizing pen with
  | nil => exact opened
  | cons p rest ih => exact ih rfl

theorem chainStart_lines (pen : Pen α) (points : List (Point α)) :
    (points.foldl lineTo pen).chainStart = pen.chainStart := by
  induction points generalizing pen with
  | nil => rfl
  | cons p rest ih => exact ih _

theorem segments_close (pen : Pen α) :
    pen.close.segments = pen.segments ++
      through pen.position (if pen.pending.isSome then [pen.chainStart] else []) := by
  obtain ⟨_, _, _, pending, _⟩ := pen
  cases pending <;> simp [segments, close, through]

/-- Lines from a first point on that lead back to it. -/
theorem segments_ring (pen : Pen α) (first : Point α) (rest : List (Point α)) :
    (rest.foldl lineTo (pen.moveTo first)).close.segments =
      pen.segments ++ through first (rest ++ [first]) := by
  have opened : (rest.foldl lineTo (pen.moveTo first)).pending.isSome = true :=
    pending_lines rfl rest
  rw [segments_close, segments_lines, position_lines, chainStart_lines, segments_moveTo,
    if_pos opened, List.append_assoc, through_append]
  rfl

variable [Scalar α]

theorem segments_outline (pen : Pen α) : pen.outline.segments = pen.segments := by
  rw [← segments_lift]
  obtain ⟨_, _, _, pending, _⟩ := pen
  cases pending <;> simp [segments, outline, build, lift, Outline.segments]

theorem segments_new (curveSteps : Nat) : (new curveSteps : Pen α).segments = [] := rfl

theorem segments_curveTo {κ : Type} [Curve κ α] (pen : Pen α) (curve : κ) (target : Point α) :
    (pen.curveTo curve target).segments = pen.segments ++
      through pen.position (Curve.samples curve (max pen.curveSteps 1) ++ [target]) := by
  rw [curveTo, segments_append]
  exact congrArg _ (toList_pinEnds _ _ (Curve.toList_flatten curve pen.curveSteps))

/-- An ellipse leads from its first point through the samples back to it. -/
theorem segments_ellipse (pen : Pen α) (center : Point α) (rx ry : α) (steps : Nat) :
    let arc := Arc.ellipse center rx ry
    (pen.ellipse center rx ry steps).segments = pen.segments ++
      through (Curve.start arc) (Curve.samples arc (max steps 3) ++ [Curve.start arc]) :=
  segments_ring ..

end Pen
end VectorPaint
