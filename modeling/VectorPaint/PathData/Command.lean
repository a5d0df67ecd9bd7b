import VectorPaint.Outline.Pen
import VectorPaint.PathData.Group

/-!
Drawing commands in absolute coordinates, and how the groups of path data become commands: each one
is resolved against the commands before it. After that whole texts of path data, number lists and
lengths. Errors are told by the number of bytes before them; for a length that is counted after its
blanks were trimmed.
-/
namespace VectorPaint.PathData

inductive Command (α : Type) where
  | moveTo (p : Point α)
  | lineTo (p : Point α)
  | quadTo (control p : Point α)
  | cubicTo (control₁ control₂ p : Point α)
  | arcTo (radii : Point α) (rotation : α) (large sweep : Bool) (p : Point α)
  | close (p : Point α)

/-- Where a command ends. -/
def Command.target {α : Type} : Command α → Point α
  | moveTo p | lineTo p | quadTo _ p | cubicTo _ _ p | arcTo _ _ _ _ p | close p => p

/-- What the meaning of a group depends on: the current position, the point that a close goes back
to, and the command before. -/
structure Context (α : Type) where
  position : Point α
  chainStart : Point α
  previous : Option (Command α)

variable {α : Type} [Scalar α]

def Context.initial : Context α := ⟨Point.origin, Point.origin, none⟩

def Context.after {α : Type} (context : Context α) (command : Command α) : Context α where
  position := command.target
  chainStart :=
    match command with
    | .moveTo p => p
    | _ => context.chainStart
  previous := some command

/-- The first control point of a smooth quadratic curve. -/
def Context.quadraticControl (context : Context α) : Point α :=
  match context.previous with
  | some (.quadTo control p) => p.reflect control
  | _ => context.position

/-- The first control point of a smooth cubic curve. -/
def Context.cubicControl (context : Context α) : Point α :=
  match context.previous with
  | some (.cubicTo _ control₂ p) => p.reflect control₂
  | _ => context.position

/-- The command that a group stands for. The radii of an arc have no sign. -/
def Context.resolve (context : Context α) (group : Group α) : Command α :=
  let place (p : Point α) := if group.relative then p + context.position else p
  match group.operands with
  | .move p => .moveTo (place p)
  | .line p => .lineTo (place p)
  | .horizontal x =>
    .lineTo ⟨if group.relative then context.position.x + x else x, context.position.y⟩
  | .vertical y =>
    .lineTo ⟨context.position.x, if group.relative then context.position.y + y else y⟩
  | .cubic control₁ control₂ p => .cubicTo (place control₁) (place control₂) (place p)
  | .smoothCubic control₂ p => .cubicTo context.cubicControl (place control₂) (place p)
  | .quadratic control p => .quadTo (place control) (place p)
  | .smoothQuadratic p => .quadTo context.quadraticControl (place p)
  | .arc radii rotation large sweep p =>
    .arcTo ⟨Scalar.abs radii.x, Scalar.abs radii.y⟩ rotation large sweep (place p)
  | .close => .close context.chainStart

/-- The commands that groups stand for, one for each. -/
def resolveAll (context : Context α) : List (Group α) → List (Command α)
  | [] => []
  | group :: more =>
    let command := context.resolve group
    command :: resolveAll (context.after command) more

/-- Draws a command. A close needs no point: the pen knows where its chain started. -/
def Command.draw (pen : Pen α) : Command α → Pen α
  | moveTo p => pen.moveTo p
  | lineTo p => pen.lineTo p
  | quadTo control p => pen.quadTo control p
  | cubicTo control₁ control₂ p => pen.cubicTo control₁ control₂ p
  | arcTo radii rotation large sweep p => pen.arcTo radii rotation large sweep p
  | close _ => pen.close

/-- The commands of path data up to its first error, and that error. -/
def commands (text : String) : List (Command Float) × Option Error :=
  let (groups, fault) := groups none text.toList
  (resolveAll Context.initial groups, fault.map (·.toError text.toList))

/-- Draws the commands of path data up to its first error. -/
def draw (pen : Pen Float) (text : String) : Pen Float :=
  (commands text).1.foldl Command.draw pen

/-- The outline of path data without errors. -/
def outline (curveSteps : Nat) (text : String) : Except Error (Outline Float) :=
  match commands text with
  | (_, some error) => .error error
  | (commands, none) => .ok (commands.foldl Command.draw (Pen.new curveSteps)).outline

/-- The numbers of a list, read until only separators are left. -/
def numberList (text : List Char) : Except Fault (List Float) :=
  match skipSeparators text with
  | [] => .ok []
  | _ :: _ =>
    match _read : number text with
    | .error fault => .error fault
    | .ok (value, rest) =>
      match numberList rest with
      | .error fault => .error fault
      | .ok more => .ok (value :: more)
termination_by text.length
decreasing_by exact number_takes (by assumption)

/-- A list of numbers between separators. -/
def numbers (text : String) : Except Error (List Float) :=
  (numberList text.toList).mapError (·.toError text.toList)

/-- A number, and after it either nothing or the unit of pixels. -/
def trimmedLength (text : List Char) : Except Fault Float :=
  match number text with
  | .error fault => .error fault
  | .ok (value, rest) =>
    if rest = [] ∨ rest = ['p', 'x'] then .ok value else .error ⟨.trailingCharacters, rest⟩

/-- A length; blanks around it are ignored. -/
def length (text : String) : Except Error Float :=
  let trimmed := Text.trim text.toList
  (trimmedLength trimmed).mapError (·.toError trimmed)

end VectorPaint.PathData
