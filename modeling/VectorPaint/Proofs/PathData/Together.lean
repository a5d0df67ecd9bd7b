import VectorPaint.PathData.Command
import VectorPaint.Proofs.Outline.PenRun

/-!
Reader and pen stay together. Both keep a position and the point where the last chain started, by
rules of their own: the reader goes back with every close, the pen only if a chain is open, and it
opens a chain only when something is drawn. After each command of a text both are at the end of that
command and would close at the same point. So a close need not tell the pen where to go.
-/
namespace VectorPaint

variable {α : Type}

/-- Closes the open chain at a given point, and goes there. -/
def Pen.closeAt (pen : Pen α) (p : Point α) : Pen α :=
  match pen.pending with
  | none => { pen with position := p }
  | some segments =>
    { pen with
      position := p
      pending := none
      finished := pen.finished.push ⟨p, segments.push ⟨pen.position, p⟩, true⟩ }

/-- An arc is drawn by some segments, or by a single one in place of an arc that there is not. -/
theorem Pen.exists_append_eq_arcTo [Scalar α] (pen : Pen α) (radii : Point α) (rotation : α)
    (large sweep : Bool) (p : Point α) :
    ∃ segments, pen.arcTo radii rotation large sweep p = pen.append segments p := by
  unfold Pen.arcTo
  split
  · exact ⟨_, rfl⟩
  · exact ⟨_, rfl⟩

deriving instance DecidableEq for Point

namespace PathData

deriving instance DecidableEq for Command

/-- The reader and the pen are at the same place. -/
structure Together (context : Context α) (pen : Pen α) : Prop where
  position : pen.position = context.position
  chainStart : pen.chainStart = context.chainStart
  resting : pen.pending = none → pen.position = pen.chainStart

namespace Together

variable {context : Context α} {pen : Pen α} {command : Command α}

/-- Whatever is drawn ends at the target, in the chain that was begun before. -/
theorem append (together : Together context pen)
    (stays : (context.after command).chainStart = context.chainStart)
    (segments : Array (Segment α)) :
    Together (context.after command) (pen.append segments command.target) where
  position := rfl
  chainStart := together.chainStart.trans stays.symm
  resting := nofun

/-- Without an open chain the pen is already where a close goes. -/
theorem close (together : Together context pen) :
    Together (context.after (.close context.chainStart)) pen.close := by
  unfold Pen.close
  cases opened : pen.pending with
  | none =>
    have resting := together.resting opened
    exact ⟨resting.trans together.chainStart, together.chainStart, fun _ => resting⟩
  | some segments => exact ⟨together.chainStart, together.chainStart, fun _ => rfl⟩

theorem closeAt_eq_close (together : Together context pen) :
    pen.closeAt context.chainStart = pen.close := by
  rw [← together.chainStart]
  unfold Pen.closeAt Pen.close
  cases opened : pen.pending with
  | none =>
    have resting := together.resting opened
    obtain ⟨_, _, _, _, _⟩ := pen
    cases opened
    cases resting
    rfl
  | some segments => rfl

variable [Scalar α]

/-- One command keeps reader and pen together, if a close goes where the reader closes. -/
theorem draw (together : Together context pen)
    (returns : ∀ p, command = .close p → p = context.chainStart) :
    Together (context.after command) (command.draw pen) := by
  cases command with
  | moveTo p => exact ⟨rfl, rfl, nofun⟩
  | lineTo p => exact together.append rfl _
  | quadTo control p => exact together.append rfl _
  | cubicTo control₁ control₂ p => exact together.append rfl _
  | arcTo radii rotation large sweep p =>
    obtain ⟨segments, same⟩ := pen.exists_append_eq_arcTo radii rotation large sweep p
    simp only [Command.draw, same]
    exact together.append rfl segments
  | close p =>
    obtain rfl := returns p rfl
    exact together.close

end Together

variable [Scalar α]

/-- What the reader keeps after commands. -/
def contextAfter (history : List (Command α)) : Context α :=
  history.foldl Context.after Context.initial

/-- A new pen that has drawn commands. -/
def penAfter (curveSteps : Nat) (history : List (Command α)) : Pen α :=
  history.foldl Command.draw (Pen.new curveSteps)

theorem together_new (curveSteps : Nat) :
    Together (Context.initial : Context α) (Pen.new curveSteps) :=
  ⟨rfl, rfl, fun _ => rfl⟩

theorem eq_chainStart_of_resolve {context : Context α} {group : Group α} {p : Point α}
    (closes : context.resolve group = .close p) : p = context.chainStart := by
  obtain ⟨relative, operands⟩ := group
  cases operands with
  | close =>
    cases closes
    rfl
  | _ => cases closes

/-- The first command of a run stands for the first group, and the others follow it. -/
theorem resolveAll_eq_cons {context : Context α} {read : List (Group α)} {command : Command α}
    {later : List (Command α)} (yielded : resolveAll context read = command :: later) :
    ∃ group more, read = group :: more ∧ command = context.resolve group ∧
      resolveAll (context.after command) more = later := by
  cases read with
  | nil => cases yielded
  | cons group more =>
    cases yielded
    exact ⟨group, more, rfl, rfl, rfl⟩

/-- Reader and pen are together before each command of a run, which stands for the group in its
place. -/
theorem Together.run {context : Context α} {pen : Pen α} {read : List (Group α)}
    {history later : List (Command α)} {command : Command α} (together : Together context pen)
    (yielded : resolveAll context read = history ++ command :: later) :
    Together (history.foldl Context.after context) (history.foldl Command.draw pen) ∧
      ∃ group, read[history.length]? = some group ∧
        command = (history.foldl Context.after context).resolve group := by
  induction history generalizing context pen read with
  | nil =>
    obtain ⟨group, more, rfl, stands, -⟩ := resolveAll_eq_cons yielded
    exact ⟨together, group, rfl, stands⟩
  | cons first rest ih =>
    obtain ⟨group, more, rfl, stands, onward⟩ := resolveAll_eq_cons yielded
    refine ih (together.draw fun p closes => ?_) onward
    exact eq_chainStart_of_resolve (stands.symm.trans closes)

/-- After each command that a text yields, whether or not it has an error later on, the pen is at
the end of the command, where the reader is, and would close where the reader would. Each close goes
to that point, so the pen does the same as if it were told. -/
theorem pen_follows_reader (curveSteps : Nat) (text : String)
    (history later : List (Command Float)) (command : Command Float)
    (yielded : (commands text).1 = history ++ command :: later) :
    (∃ group, (groups none text.toList).1[history.length]? = some group ∧
        command = (contextAfter history).resolve group) ∧
      (penAfter curveSteps (history ++ [command])).position = command.target ∧
      (contextAfter (history ++ [command])).position = command.target ∧
      (penAfter curveSteps (history ++ [command])).chainStart =
        (contextAfter (history ++ [command])).chainStart ∧
      ∀ p, command = .close p →
        p = (penAfter curveSteps history).chainStart ∧
        p = (penAfter curveSteps (history ++ [command])).chainStart ∧
        (penAfter curveSteps history).closeAt p = penAfter curveSteps (history ++ [command]) := by
  obtain ⟨before, group, found, stands⟩ := (together_new curveSteps).run yielded
  have returns : ∀ p, command = .close p → p = (contextAfter history).chainStart :=
    fun p closes => eq_chainStart_of_resolve (stands.symm.trans closes)
  have after := before.draw returns
  simp only [contextAfter, penAfter, List.foldl_append, List.foldl_cons, List.foldl_nil]
  refine ⟨⟨group, found, stands⟩, after.position, rfl, after.chainStart, ?_⟩
  rintro p rfl
  obtain rfl := returns p rfl
  exact ⟨before.chainStart.symm, after.chainStart.symm, before.closeAt_eq_close⟩

/-- A triangle closed twice, a line drawn from its start, a move relative to the end of the line,
and an arc that is a straight line because one of its radii is zero. -/
def loopText : String := "M1 2l3 4h-3zz l1 1m1 0a0 5 0 0 1 3 3z"

def loopHistory : List (Command Float) :=
  [.moveTo ⟨1, 2⟩, .lineTo ⟨4, 6⟩, .lineTo ⟨1, 6⟩, .close ⟨1, 2⟩, .close ⟨1, 2⟩, .lineTo ⟨2, 3⟩,
    .moveTo ⟨3, 3⟩, .arcTo ⟨0, 5⟩ 0 false true ⟨6, 6⟩]

theorem penAfter_loopText :
    (commands loopText).1 = loopHistory ++ [.close ⟨3, 3⟩] ∧
      (penAfter 24 loopHistory).chainStart = ⟨3, 3⟩ ∧
      (penAfter 24 (commands loopText).1).position = ⟨3, 3⟩ ∧
      (contextAfter (commands loopText).1).position = ⟨3, 3⟩ := by
  have yielded : (commands loopText).1 = loopHistory ++ [.close ⟨3, 3⟩] := by decide +kernel
  obtain ⟨-, pen, context, -, closing⟩ := pen_follows_reader 24 loopText _ _ _ yielded
  rw [yielded]
  exact ⟨rfl, (closing _ rfl).1.symm, pen, context⟩

end PathData
end VectorPaint
