import VectorPaint.PathData.Command
import VectorPaint.Proofs.Outline.PenRun

/-!
Drawing on with a pen that has drawn before. The chains that a pen has finished have no influence on
what it draws, and a move ends whatever was under way. So from a move on a pen draws what a new one
would draw, after the chains that it has.
-/
namespace VectorPaint.Pen

variable {α : Type}

/-- A pen that has finished some chains before its own. -/
def onto (chains : Array (Chain α)) (pen : Pen α) : Pen α :=
  { pen with finished := chains ++ pen.finished }

section Onto

variable (chains : Array (Chain α)) (pen : Pen α)

theorem lift_onto : (pen.onto chains).lift = pen.lift.onto chains := by
  obtain ⟨_, _, _, pending, _⟩ := pen
  cases pending with
  | none => rfl
  | some segments => simp only [lift, onto, Array.push_append]

theorem moveTo_onto (p : Point α) : (pen.onto chains).moveTo p = (pen.moveTo p).onto chains := by
  unfold moveTo
  rw [lift_onto]
  rfl

theorem close_onto : (pen.onto chains).close = pen.close.onto chains := by
  obtain ⟨_, _, _, pending, _⟩ := pen
  cases pending with
  | none => rfl
  | some segments => simp only [close, onto, Array.push_append]

theorem arcTo_onto [Scalar α] (radii : Point α) (rotation : α) (large sweep : Bool)
    (p : Point α) : (pen.onto chains).arcTo radii rotation large sweep p =
      (pen.arcTo radii rotation large sweep p).onto chains := by
  have position : (pen.onto chains).position = pen.position := rfl
  unfold arcTo
  rw [position]
  split
  · rfl
  · rfl

theorem chains_outline_onto [Scalar α] :
    (pen.onto chains).outline.chains = chains ++ pen.outline.chains := by
  change (pen.onto chains).lift.finished = _
  rw [lift_onto]
  rfl

end Onto

variable [Scalar α]

open PathData

theorem draw_onto (chains : Array (Chain α)) (pen : Pen α) (command : Command α) :
    command.draw (pen.onto chains) = (command.draw pen).onto chains := by
  cases command with
  | moveTo p => exact moveTo_onto chains pen p
  | lineTo p => rfl
  | quadTo control p => rfl
  | cubicTo control₁ control₂ p => rfl
  | arcTo radii rotation large sweep p => exact arcTo_onto chains pen radii rotation large sweep p
  | close p => exact close_onto chains pen

theorem drawAll_onto (chains : Array (Chain α)) (pen : Pen α) (commands : List (Command α)) :
    commands.foldl Command.draw (pen.onto chains) =
      (commands.foldl Command.draw pen).onto chains := by
  induction commands generalizing pen with
  | nil => rfl
  | cons command rest ih => rw [List.foldl_cons, draw_onto, ih, List.foldl_cons]

/-- A move begins as a new pen would, after what is finished. -/
theorem moveTo_eq_onto {curveSteps : Nat} {pen : Pen α}
    (ok : Consistent curveSteps pen) (p : Point α) :
    pen.moveTo p = ((new curveSteps).moveTo p).onto pen.outline.chains := by
  have steps := ok.steps
  unfold moveTo onto new outline build lift
  cases pen.pending with
  | none => simp [steps]
  | some segments => simp [steps]

/-- Commands that begin with a move, if there are any, add the chains that a new pen would draw. -/
theorem chains_drawAll_of_moves {curveSteps : Nat} {pen : Pen α} {commands : List (Command α)}
    (ok : Consistent curveSteps pen) (moves : ∀ first ∈ commands.head?, ∃ p, first = .moveTo p) :
    (commands.foldl Command.draw pen).outline.chains =
      pen.outline.chains ++ (commands.foldl Command.draw (new curveSteps)).outline.chains := by
  cases commands with
  | nil =>
    have none : (new curveSteps : Pen α).outline.chains = #[] := rfl
    simp only [List.foldl_nil, none, Array.append_empty]
  | cons first rest =>
    obtain ⟨p, rfl⟩ := moves first rfl
    simp only [List.foldl_cons, Command.draw]
    rw [moveTo_eq_onto ok, drawAll_onto, chains_outline_onto]

end VectorPaint.Pen
