import VectorPaint.Drawing.Element
import VectorPaint.Proofs.Outline.PenRun

/-!
Where outlines come from: pens hand them out, and elements are drawn by pens. All of them are
linked, and they stay so when their coordinates are read as those of another arithmetic.
-/
namespace VectorPaint

variable {α β : Type}

def Point.map (read : α → β) (p : Point α) : Point β := ⟨read p.x, read p.y⟩

def Segment.map (read : α → β) (s : Segment α) : Segment β := ⟨s.start.map read, s.stop.map read⟩

def Chain.map (read : α → β) (c : Chain α) : Chain β :=
  ⟨c.start.map read, c.segments.map (Segment.map read), c.closed⟩

/-- Reads all coordinates of an outline, as numbers of another kind perhaps. -/
def Outline.map (read : α → β) (o : Outline α) : Outline β := ⟨o.chains.map (Chain.map read)⟩

/-- Segments that meet in a point still meet in it, however it is read. -/
theorem Chain.Linked.map (read : α → β) {c : Chain α} (linked : c.Linked) :
    (c.map read).Linked where
  starts := by
    intro s first
    obtain ⟨t, found, rfl⟩ := Option.map_eq_some_iff.mp (Array.getElem?_map.symm.trans first)
    exact congrArg (Point.map read) (linked.starts t found)
  follows := by
    intro i s t here next
    obtain ⟨s, foundHere, rfl⟩ := Option.map_eq_some_iff.mp (Array.getElem?_map.symm.trans here)
    obtain ⟨t, foundNext, rfl⟩ := Option.map_eq_some_iff.mp (Array.getElem?_map.symm.trans next)
    exact congrArg (Point.map read) (linked.follows i s t foundHere foundNext)
  returns := by
    intro closed
    obtain ⟨s, last, home⟩ := linked.returns closed
    exact ⟨s.map read, by simp [Chain.map, last], congrArg (Point.map read) home⟩

theorem Outline.Linked.map (read : α → β) {o : Outline α} (linked : o.Linked) :
    (o.map read).Linked := by
  intro c member
  obtain ⟨d, inside, rfl⟩ := Array.mem_map.mp member
  exact (linked d inside).map read

/-- The outlines that there are to paint: those that a pen hands out after any actions, and those
of elements. -/
inductive Outline.Drawn : {α : Type} → [Scalar α] → Outline α → Prop where
  | byPen {α : Type} [Scalar α] {o : Outline α} (curveSteps : Nat)
      (actions : List (Pen.Action α)) :
      o ∈ (Pen.run (Pen.new curveSteps) actions).1 → Drawn o
  | ofElement {o : Outline Float} (options : Options) (element : Element) :
      element.outline options = .ok o → Drawn o

namespace Pen.Consistent

variable [Scalar α] {pen : Pen α} {curveSteps : Nat}

theorem outline (ok : Consistent curveSteps pen) : pen.outline.Linked := ok.lift_finished

theorem draw (ok : Consistent curveSteps pen) (command : PathData.Command α) :
    Consistent curveSteps (command.draw pen) := by
  cases command with
  | moveTo p => exact ok.moveTo p
  | lineTo p => exact ok.lineTo p
  | quadTo control p => exact ok.curveTo _ p
  | cubicTo control₁ control₂ p => exact ok.curveTo _ p
  | arcTo radii rotation large sweep p => exact ok.arcTo radii rotation large sweep p
  | close p => exact ok.close

theorem drawAll (ok : Consistent curveSteps pen) (commands : List (PathData.Command α)) :
    Consistent curveSteps (commands.foldl PathData.Command.draw pen) := by
  induction commands generalizing pen with
  | nil => exact ok
  | cons command rest ih => exact ih (ok.draw command)

end Pen.Consistent

theorem PathData.outline_linked {curveSteps : Nat} {text : String} {o : Outline Float}
    (done : PathData.outline curveSteps text = .ok o) : o.Linked := by
  unfold PathData.outline at done
  split at done
  · cases done
  · cases done
    exact ((Pen.consistent_new curveSteps).drawAll _).outline

theorem Element.outline_linked {options : Options} {element : Element} {o : Outline Float}
    (done : element.outline options = .ok o) : o.Linked := by
  have fresh : Pen.Consistent options.curveSegments (Pen.new options.curveSegments : Pen Float) :=
    Pen.consistent_new _
  have nothing : (Outline.empty : Outline Float).Linked := by
    intro c member
    simp [Outline.empty] at member
  have through (points : List (Point Float)) : Pen.Consistent options.curveSegments
      (drawThrough (Pen.new options.curveSegments) points) := by
    cases points with
    | nil => exact fresh
    | cons first rest => exact (fresh.moveTo first).lines rest
  cases element with
  | rect x y width height =>
    simp only [outline] at done
    split at done
    · cases done
      exact nothing
    · cases done
      exact ((((fresh.moveTo _).lineTo _).lineTo _).lineTo _).close.outline
  | circle center r =>
    simp only [outline] at done
    split at done
    · cases done
      exact nothing
    · cases done
      exact (fresh.ellipse _ _ _ _).outline
  | ellipse center rx ry =>
    simp only [outline] at done
    split at done
    · cases done
      exact nothing
    · cases done
      exact (fresh.ellipse _ _ _ _).outline
  | line segment =>
    cases done
    exact ((fresh.moveTo _).lineTo _).outline
  | polyline points =>
    cases done
    exact (through points).outline
  | polygon points =>
    cases done
    exact (through points).close.outline
  | path data =>
    simp only [outline] at done
    cases drawn : PathData.outline options.curveSegments data with
    | error error =>
      rw [drawn] at done
      cases done
    | ok found =>
      rw [drawn] at done
      cases done
      exact PathData.outline_linked drawn

/-- Drawn outlines have no gaps. -/
theorem Outline.Drawn.linked [Scalar α] {o : Outline α} (drawn : o.Drawn) : o.Linked := by
  cases drawn with
  | byPen curveSteps actions made =>
    exact ((Pen.consistent_new curveSteps).run actions).2 o made
  | ofElement options element done => exact Element.outline_linked done

end VectorPaint
