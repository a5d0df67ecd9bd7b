import VectorPaint.Proofs.Outline.Drawn
import VectorPaint.Proofs.Outline.Through
import VectorPaint.Proofs.PathData.Joined
import VectorPaint.Proofs.PathData.Together

/-!
The segments of path data, told from the commands alone. The pen need not be asked: what the reader
keeps is enough to say where a command begins, through which points it leads, and whether a close
has anything to close. So the segments of an outline are those that lead through these points, one
command after the other.
-/
namespace VectorPaint.PathData

variable {α : Type} {context : Context α} {pen : Pen α} {curveSteps : Nat}

/-- There is a chain to close: some command came before, and it was no close. -/
def Context.isOpen (context : Context α) : Bool :=
  match context.previous with
  | none => false
  | some (.close _) => false
  | some _ => true

section Corners

variable [Scalar α]

/-- The points through which a curve leads that ends at `target`. -/
def curveCorners {κ : Type} [Curve κ α] (curveSteps : Nat) (curve : κ) (target : Point α) :
    List (Point α) :=
  Curve.samples curve (max curveSteps 1) ++ [target]

/-- The points to which a command draws, in their order. -/
def Context.corners (curveSteps : Nat) (context : Context α) : Command α → List (Point α)
  | .moveTo _ => []
  | .lineTo p => [p]
  | .quadTo control p => curveCorners curveSteps (Quadratic.mk context.position control p) p
  | .cubicTo control₁ control₂ p =>
    curveCorners curveSteps (Cubic.mk context.position control₁ control₂ p) p
  | .arcTo radii rotation large sweep p =>
    match Arc.between context.position p radii.x radii.y rotation large sweep with
    | none => [p]
    | some arc => curveCorners curveSteps arc p
  | .close p => if context.isOpen then [p] else []

/-- The segments that commands draw one after the other. -/
def trail (curveSteps : Nat) (context : Context α) : List (Command α) → List (Segment α)
  | [] => []
  | command :: more =>
    through context.position (context.corners curveSteps command) ++
      trail curveSteps (context.after command) more

end Corners

/-- There is a chain to close after every command but a close. -/
theorem opened_draw [Scalar α] (command : Command α) (context : Context α) (pen : Pen α) :
    (command.draw pen).pending.isSome = (context.after command).isOpen := by
  cases command with
  | arcTo radii rotation large sweep p =>
    obtain ⟨segments, same⟩ := pen.exists_append_eq_arcTo radii rotation large sweep p
    rw [Command.draw, same]
    rfl
  | close p =>
    rw [Command.draw, Pen.close]
    split
    · rename_i none
      rw [none]
      rfl
    · rfl
  | _ => rfl

/-- The reader knows where the pen is and whether it has an open chain. -/
structure Known (curveSteps : Nat) (context : Context α) (pen : Pen α) : Prop where
  together : Together context pen
  consistent : pen.Consistent curveSteps
  opened : pen.pending.isSome = context.isOpen

namespace Known

variable {command : Command α}

theorem segments_lineTo (known : Known curveSteps context pen) (p : Point α) :
    (pen.lineTo p).segments = pen.segments ++ through context.position [p] := by
  rw [Pen.segments_lineTo, known.together.position]

variable [Scalar α]

theorem segments_curveTo {κ : Type} [Curve κ α] (known : Known curveSteps context pen) (curve : κ)
    (target : Point α) : (pen.curveTo curve target).segments = pen.segments ++
      through context.position (curveCorners curveSteps curve target) := by
  have steps : max pen.curveSteps 1 = max curveSteps 1 := by
    rw [known.consistent.steps]
    omega
  rw [Pen.segments_curveTo, steps, known.together.position]
  rfl

/-- A command adds the segments through its corners. -/
theorem segments_draw (known : Known curveSteps context pen)
    (returns : ∀ p, command = .close p → p = context.chainStart) :
    (command.draw pen).segments =
      pen.segments ++ through context.position (context.corners curveSteps command) := by
  have position := known.together.position
  cases command with
  | moveTo p => exact (pen.segments_moveTo p).trans (List.append_nil _).symm
  | lineTo p => exact known.segments_lineTo p
  | quadTo control p =>
    rw [Command.draw, Pen.quadTo, position]
    exact known.segments_curveTo _ p
  | cubicTo control₁ control₂ p =>
    rw [Command.draw, Pen.cubicTo, position]
    exact known.segments_curveTo _ p
  | arcTo radii rotation large sweep p =>
    simp only [Command.draw, Pen.arcTo, Context.corners, position]
    cases Arc.between context.position p radii.x radii.y rotation large sweep with
    | none => exact known.segments_lineTo p
    | some arc => exact known.segments_curveTo arc p
  | close p =>
    obtain rfl := returns p rfl
    rw [Command.draw, Pen.segments_close, position, known.together.chainStart, known.opened]
    rfl

theorem draw (known : Known curveSteps context pen)
    (returns : ∀ p, command = .close p → p = context.chainStart) :
    Known curveSteps (context.after command) (command.draw pen) where
  together := known.together.draw returns
  consistent := known.consistent.draw command
  opened := opened_draw command context pen

/-- Commands that stand for groups add their trail. -/
theorem segments_drawAll (known : Known curveSteps context pen) (read : List (Group α)) :
    ((resolveAll context read).foldl Command.draw pen).segments =
      pen.segments ++ trail curveSteps context (resolveAll context read) := by
  induction read generalizing context pen with
  | nil => exact (List.append_nil _).symm
  | cons group more ih =>
    have returns : ∀ p, context.resolve group = .close p → p = context.chainStart :=
      fun p closes => eq_chainStart_of_resolve closes
    rw [resolveAll, List.foldl_cons, ih (known.draw returns), known.segments_draw returns,
      List.append_assoc]
    rfl

end Known

theorem known_new [Scalar α] (curveSteps : Nat) :
    Known curveSteps (Context.initial : Context α) (Pen.new curveSteps) :=
  ⟨together_new curveSteps, Pen.consistent_new curveSteps, rfl⟩

/-- The segments of an outline are the trail of its commands. -/
theorem segments_of_outline {text : String} {o : Outline Float}
    (done : outline curveSteps text = .ok o) :
    o.segments = trail curveSteps Context.initial (commands text).1 := by
  obtain ⟨-, rfl⟩ := outline_eq_ok.mp done
  rw [Pen.segments_outline]
  exact ((known_new curveSteps).segments_drawAll (groups none text.toList).1).trans
    (List.nil_append _)

end VectorPaint.PathData
