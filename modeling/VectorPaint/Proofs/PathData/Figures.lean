import Mathlib.Data.List.Chain
import Mathlib.Data.List.Forall2
import Mathlib.Data.List.TakeWhile
import VectorPaint.Proofs.Outline.Through
import VectorPaint.Proofs.PathData.Together

/-!
One chain for each figure. Commands fall into figures: a move begins one, and so does whatever is
drawn while there is none; a close ends it, and otherwise the next move. The pen makes the chains of
an outline figure by figure, with a segment for each line, as many as were asked for each curve, and
one more for a close. A figure may be empty, and a close outside of figures leaves no trace.
-/
namespace VectorPaint

variable {α : Type}

namespace PathData

namespace Command

/-- The command draws: it is neither a move nor a close. -/
def draws : Command α → Bool
  | moveTo _ | close _ => false
  | _ => true

def moves : Command α → Bool
  | moveTo _ => true
  | _ => false

def closes : Command α → Bool
  | close _ => true
  | _ => false

/-- The command is a move, a line or a close. -/
def straight : Command α → Bool
  | moveTo _ | lineTo _ | close _ => true
  | _ => false

/-- What a command begins that comes outside of figures: the start of the figure and the drawing
that the command adds to it. A move starts at its own point, a drawing command where the figure
before did. A close begins nothing. -/
def begins? (last : Point α) : Command α → Option (Point α × List (Command α))
  | close _ => none
  | moveTo p => some (p, [])
  | command => some (last, [command])

end Command

/-- The commands that are drawn as one. -/
structure Figure (α : Type) where
  start : Point α
  drawing : List (Command α)
  closed : Bool

/-- The points that a figure is led through. -/
def Figure.points (f : Figure α) : List (Point α) := f.start :: f.drawing.map Command.target

def endsClosed : List (Command α) → Bool
  | .close _ :: _ => true
  | _ => false

/-- A close that ends a figure belongs to it. -/
def afterClose : List (Command α) → List (Command α)
  | .close _ :: rest => rest
  | rest => rest

theorem afterClose_suffix (commands : List (Command α)) : afterClose commands <:+ commands := by
  unfold afterClose
  split
  · exact List.suffix_cons _ _
  · exact List.suffix_rfl

/-- What comes after a figure is a part of the commands after its first one. -/
theorem afterFigure_suffix (rest : List (Command α)) :
    afterClose (rest.dropWhile Command.draws) <:+ rest :=
  (afterClose_suffix _).trans (List.dropWhile_suffix _)

/-- The figures of commands. Each one goes on as long as there is something to draw. -/
def figures (last : Point α) : List (Command α) → List (Figure α)
  | [] => []
  | command :: rest =>
    match command.begins? last with
    | none => figures last rest
    | some (start, first) =>
      let onward := rest.dropWhile Command.draws
      ⟨start, first ++ rest.takeWhile Command.draws, endsClosed onward⟩ ::
        figures start (afterClose onward)
termination_by commands => commands.length
decreasing_by
  · exact Nat.lt_succ_self _
  · exact Nat.lt_succ_of_le (afterFigure_suffix rest).length_le

theorem figures_of_none {command : Command α} {last : Point α}
    (none : command.begins? last = none) (rest : List (Command α)) :
    figures last (command :: rest) = figures last rest := by
  rw [figures, none]

theorem figures_of_begins {command : Command α} {last start : Point α} {first : List (Command α)}
    (begins : command.begins? last = some (start, first)) (rest : List (Command α)) :
    figures last (command :: rest) =
      ⟨start, first ++ rest.takeWhile Command.draws, endsClosed (rest.dropWhile Command.draws)⟩ ::
        figures start (afterClose (rest.dropWhile Command.draws)) := by
  rw [figures, begins]

/-- What follows the drawing of a figure draws nothing at first. -/
theorem draws_head_dropWhile (commands : List (Command α)) :
    ∀ next ∈ (commands.dropWhile Command.draws).head?, next.draws = false := by
  intro next first
  have := List.head?_dropWhile_not Command.draws commands
  simpa [Option.mem_def.mp first] using this

theorem eq_of_begins {command other : Command α} {last start : Point α}
    {first : List (Command α)} (begins : command.begins? last = some (start, first))
    (member : other ∈ first) : other = command ∧ command.draws = true := by
  cases command with
  | close q => cases begins
  | moveTo q =>
    cases begins
    cases member
  | _ =>
    cases begins
    exact ⟨List.mem_singleton.mp member, rfl⟩

/-- A figure is drawn by its first command, unless that is a move, and by drawing commands after
it. -/
theorem draws_of_begins {command : Command α} {last start : Point α} {first : List (Command α)}
    (begins : command.begins? last = some (start, first)) (rest : List (Command α)) :
    ∀ other ∈ first ++ rest.takeWhile Command.draws,
      other.draws = true ∧ other ∈ command :: rest := by
  intro other member
  rcases List.mem_append.mp member with begun | later
  · obtain ⟨rfl, draws⟩ := eq_of_begins begins begun
    exact ⟨draws, List.mem_cons_self⟩
  · exact ⟨List.mem_takeWhile_imp later,
      List.mem_cons_of_mem _ ((List.takeWhile_sublist _).mem later)⟩

/-- A figure is drawn by drawing commands that are among all commands. -/
theorem drawing_of_mem_figures {last : Point α} {commands : List (Command α)} {f : Figure α}
    (member : f ∈ figures last commands) :
    ∀ command ∈ f.drawing, command.draws = true ∧ command ∈ commands := by
  induction last, commands using figures.induct with
  | case1 last => simp [figures] at member
  | case2 last command rest none ih =>
    rw [figures_of_none none] at member
    exact fun other drawn => (ih member other drawn).imp_right (List.mem_cons_of_mem _)
  | case3 last command rest start first begins onward ih =>
    rw [figures_of_begins begins] at member
    rcases List.mem_cons.mp member with rfl | later
    · exact draws_of_begins begins rest
    · exact fun other drawn => (ih later other drawn).imp_right fun among =>
        List.mem_cons_of_mem _ ((afterFigure_suffix rest).mem among)

/-- Nothing is drawn before the first move, or after a close before the next one. -/
structure Anchored (commands : List (Command α)) : Prop where
  first : ∀ command ∈ commands.head?, command.draws = false
  after : commands.IsChain fun before next => before.closes = true → next.draws = false

theorem Anchored.afterClose {commands : List (Command α)} (anchored : Anchored commands) :
    Anchored (PathData.afterClose commands) := by
  cases commands with
  | nil => exact anchored
  | cons command rest =>
    cases command with
    | close q =>
      obtain ⟨next, later⟩ := List.isChain_cons.mp anchored.after
      exact ⟨fun other first => next other first rfl, later⟩
    | _ => exact anchored

theorem countP_moves_afterClose (commands : List (Command α)) :
    (afterClose commands).countP Command.moves = commands.countP Command.moves := by
  unfold afterClose
  split
  · rfl
  · rfl

/-- If every figure is begun by a move, there are as many of them as moves. -/
theorem length_figures_of_anchored {last : Point α} {commands : List (Command α)}
    (anchored : Anchored commands) :
    (figures last commands).length = commands.countP Command.moves := by
  induction last, commands using figures.induct with
  | case1 last => rw [figures]; rfl
  | case2 last command rest none ih =>
    rw [figures_of_none none]
    cases command with
    | close q => exact ih anchored.afterClose
    | _ => cases none
  | case3 last command rest start first begins onward ih =>
    have moves : command.moves = true := by
      have undrawn := anchored.first command rfl
      cases command with
      | moveTo p => rfl
      | close q => cases begins
      | _ => cases undrawn
    have drawing : (rest.takeWhile Command.draws).countP Command.moves = 0 := by
      rw [List.countP_eq_zero]
      intro other member
      have draws := List.mem_takeWhile_imp member
      cases other with
      | moveTo p => cases draws
      | _ => exact Bool.false_ne_true
    have onwardAnchored : Anchored onward :=
      ⟨draws_head_dropWhile rest,
        anchored.after.suffix ((List.dropWhile_suffix _).trans (List.suffix_cons _ _))⟩
    rw [figures_of_begins begins, List.length_cons, ih onwardAnchored.afterClose,
      countP_moves_afterClose, List.countP_cons_of_pos moves]
    conv => rhs; rw [← List.takeWhile_append_dropWhile (p := Command.draws) (l := rest)]
    rw [List.countP_append, drawing, Nat.zero_add]

section Counts

variable [Scalar α]

/-- How many segments a command becomes that is drawn from `position` on. An arc that there is not
is a line. -/
def Command.segmentCount (curveSteps : Nat) (position : Point α) : Command α → Nat
  | moveTo _ | close _ => 0
  | lineTo _ => 1
  | quadTo _ _ | cubicTo _ _ _ => max curveSteps 1
  | arcTo radii rotation large sweep p =>
    if (Arc.between position p radii.x radii.y rotation large sweep).isSome then max curveSteps 1
    else 1

/-- How many segments commands become. Each of them is drawn from the end of the one before. -/
def segmentCount (curveSteps : Nat) (position : Point α) : List (Command α) → Nat
  | [] => 0
  | command :: more =>
    command.segmentCount curveSteps position + segmentCount curveSteps command.target more

def Figure.segmentCount (curveSteps : Nat) (f : Figure α) : Nat :=
  PathData.segmentCount curveSteps f.start f.drawing + if f.closed then 1 else 0

/-- The chain that is made of a figure. -/
structure Figure.Makes (curveSteps : Nat) (f : Figure α) (c : Chain α) : Prop where
  start : c.start = f.start
  closed : c.closed = f.closed
  size : c.segments.size = f.segmentCount curveSteps

/-- Straight drawing has a segment for each command. -/
theorem segmentCount_of_straight (curveSteps : Nat) (position : Point α)
    {drawing : List (Command α)} (draws : ∀ command ∈ drawing, command.draws = true)
    (straight : ∀ command ∈ drawing, command.straight = true) :
    segmentCount curveSteps position drawing = drawing.length := by
  induction drawing generalizing position with
  | nil => rfl
  | cons command rest ih =>
    have one : command.segmentCount curveSteps position = 1 := by
      have drawn := draws command List.mem_cons_self
      have line := straight command List.mem_cons_self
      cases command with
      | lineTo p => rfl
      | moveTo p | close p => cases drawn
      | _ => cases line
    rw [segmentCount, one, List.length_cons, ih command.target
      (fun other later => draws other (List.mem_cons_of_mem _ later))
      (fun other later => straight other (List.mem_cons_of_mem _ later)), Nat.add_comm]

end Counts

end PathData

namespace Pen

/-- A pen without an open chain. -/
def resting (curveSteps : Nat) (p : Point α) (finished : Array (Chain α)) : Pen α :=
  ⟨max curveSteps 1, p, p, none, finished⟩

/-- A pen that has drawn segments from `start` to `position`. -/
def underway (curveSteps : Nat) (position start : Point α) (segments : Array (Segment α))
    (finished : Array (Chain α)) : Pen α :=
  ⟨max curveSteps 1, position, start, some segments, finished⟩

variable [Scalar α]

/-- Moving the ends of a flattened curve leaves it with as many segments as before. -/
theorem exists_append_eq_curveTo {κ : Type} [Curve κ α] (pen : Pen α) (curve : κ)
    (target : Point α) : ∃ segments, pen.curveTo curve target = pen.append segments target ∧
      segments.size = max pen.curveSteps 1 := by
  refine ⟨_, rfl, ?_⟩
  simp only [pinEnds, Array.size_modify, List.size_toArray, Curve.toList_flatten, length_through,
    Curve.samples, List.length_append, List.length_map, List.length_range', List.length_singleton]
  omega

open PathData

variable {curveSteps : Nat} {command : Command α} {position start p : Point α}
  {segments : Array (Segment α)} {finished : Array (Chain α)}

/-- A drawing command adds its segments to the chain that is open. -/
theorem draw_underway (draws : command.draws = true) :
    ∃ more : Array (Segment α),
      command.draw (underway curveSteps position start segments finished) =
        underway curveSteps command.target start (segments ++ more) finished ∧
      more.size = command.segmentCount curveSteps position := by
  have curve {κ : Type} [Curve κ α] (c : κ) (target : Point α) :
      ∃ more : Array (Segment α),
        (underway curveSteps position start segments finished).curveTo c target =
          underway curveSteps target start (segments ++ more) finished ∧
        more.size = max curveSteps 1 := by
    obtain ⟨more, same, size⟩ :=
      (underway curveSteps position start segments finished).exists_append_eq_curveTo c target
    refine ⟨more, same, size.trans ?_⟩
    simp only [underway]
    omega
  cases command with
  | moveTo q => cases draws
  | close q => cases draws
  | lineTo q => exact ⟨#[⟨position, q⟩], rfl, rfl⟩
  | quadTo control q => exact curve _ q
  | cubicTo control₁ control₂ q => exact curve _ q
  | arcTo radii rotation large sweep q =>
    have there : (underway curveSteps position start segments finished).position = position := rfl
    simp only [Command.draw, arcTo, Command.segmentCount, there]
    cases Arc.between position q radii.x radii.y rotation large sweep with
    | none => exact ⟨#[⟨position, q⟩], rfl, rfl⟩
    | some arc => exact curve arc q

/-- So do drawing commands one after the other. -/
theorem drawAll_underway (curveSteps : Nat) (position start : Point α)
    (segments : Array (Segment α)) (finished : Array (Chain α)) {drawing : List (Command α)}
    (draws : ∀ command ∈ drawing, command.draws = true) :
    ∃ (stop : Point α) (more : Array (Segment α)),
      drawing.foldl Command.draw (underway curveSteps position start segments finished) =
        underway curveSteps stop start (segments ++ more) finished ∧
      more.size = segmentCount curveSteps position drawing := by
  induction drawing generalizing position segments with
  | nil => exact ⟨position, #[], by rw [Array.append_empty, List.foldl_nil], rfl⟩
  | cons command rest ih =>
    obtain ⟨here, drawn, size⟩ := draw_underway (draws command List.mem_cons_self)
    obtain ⟨stop, more, onward, sizes⟩ := ih command.target (segments ++ here)
      fun other later => draws other (List.mem_cons_of_mem _ later)
    refine ⟨stop, here ++ more, ?_, ?_⟩
    · rw [List.foldl_cons, drawn, onward, Array.append_assoc]
    · rw [Array.size_append, size, sizes, segmentCount]

/-- A command that begins a figure opens a chain where the figure starts. -/
theorem draw_resting {first : List (Command α)}
    (begins : command.begins? p = some (start, first)) :
    command.draw (resting curveSteps p finished) =
      first.foldl Command.draw (underway curveSteps start start #[] finished) := by
  cases command with
  | close q => cases begins
  | arcTo radii rotation large sweep q =>
    cases begins
    have here : (resting curveSteps start finished).position = start := rfl
    have there : (underway curveSteps start start #[] finished).position = start := rfl
    simp only [List.foldl_cons, List.foldl_nil, Command.draw, arcTo, here, there]
    cases Arc.between start q radii.x radii.y rotation large sweep <;> rfl
  | _ =>
    cases begins
    rfl

/-- When there is nothing more to draw, the chain is finished: by a close with one segment more, and
otherwise as it is, by the next move or by the end. -/
theorem outline_underway (curveSteps : Nat) (position start : Point α)
    (segments : Array (Segment α)) (finished : Array (Chain α)) {onward : List (Command α)}
    (ended : ∀ next ∈ onward.head?, next.draws = false) :
    ∃ all : Array (Segment α),
      (onward.foldl Command.draw (underway curveSteps position start segments finished)).outline =
        ((afterClose onward).foldl Command.draw
          (resting curveSteps start (finished.push ⟨start, all, endsClosed onward⟩))).outline ∧
      all.size = segments.size + if endsClosed onward then 1 else 0 := by
  cases onward with
  | nil => exact ⟨segments, rfl, rfl⟩
  | cons next later =>
    cases next with
    | moveTo q => exact ⟨segments, rfl, rfl⟩
    | close q => exact ⟨segments.push ⟨position, start⟩, rfl, Array.size_push _⟩
    | _ => cases ended _ rfl

end Pen

namespace PathData

variable [Scalar α]

/-- From rest a pen draws a figure as far as there is something to draw. -/
theorem draw_figure (curveSteps : Nat) (finished : Array (Chain α)) {command : Command α}
    {last start : Point α} {first : List (Command α)}
    (begins : command.begins? last = some (start, first)) (rest : List (Command α)) :
    ∃ (stop : Point α) (segments : Array (Segment α)),
      (command :: rest).foldl Command.draw (Pen.resting curveSteps last finished) =
        (rest.dropWhile Command.draws).foldl Command.draw
          (Pen.underway curveSteps stop start segments finished) ∧
      segments.size = segmentCount curveSteps start (first ++ rest.takeWhile Command.draws) := by
  have draws := fun other member => (draws_of_begins begins rest other member).1
  obtain ⟨stop, segments, drawn, size⟩ :=
    Pen.drawAll_underway curveSteps start start #[] finished draws
  rw [Array.empty_append] at drawn
  refine ⟨stop, segments, ?_, size⟩
  rw [List.foldl_cons, Pen.draw_resting begins, ← drawn, ← List.foldl_append, ← List.foldl_append,
    List.append_assoc, List.takeWhile_append_dropWhile]

/-- From rest a pen makes the chains of the figures, after those that it has. -/
theorem chains_resting (curveSteps : Nat) (last : Point α) (commands : List (Command α))
    (finished : Array (Chain α)) :
    ∃ made : List (Chain α),
      (commands.foldl Command.draw (Pen.resting curveSteps last finished)).outline.chains.toList =
        finished.toList ++ made ∧
      List.Forall₂ (Figure.Makes curveSteps) (figures last commands) made := by
  induction last, commands using figures.induct generalizing finished with
  | case1 last => exact ⟨[], (List.append_nil _).symm, by rw [figures]; exact .nil⟩
  | case2 last command rest none ih =>
    rw [figures_of_none none]
    cases command with
    | close q => exact ih finished
    | _ => cases none
  | case3 last command rest start first begins onward ih =>
    obtain ⟨stop, segments, reaches, size⟩ := draw_figure curveSteps finished begins rest
    obtain ⟨all, ends, sizes⟩ :=
      Pen.outline_underway curveSteps stop start segments finished (draws_head_dropWhile rest)
    obtain ⟨made, chains, figuresMade⟩ :=
      ih (finished.push ⟨start, all, endsClosed (rest.dropWhile Command.draws)⟩)
    refine ⟨⟨start, all, endsClosed (rest.dropWhile Command.draws)⟩ :: made, ?_, ?_⟩
    · rw [reaches, ends, chains, Array.toList_push, List.append_assoc, List.singleton_append]
    · rw [figures_of_begins begins]
      exact .cons ⟨rfl, rfl, by rw [sizes, size]; rfl⟩ figuresMade

/-- The outline of commands has one chain for each of their figures, in the same order: it starts
where the figure does, is closed if the figure is, and has the segments of its drawing and of its
close. If every figure is begun by a move, there are as many chains as moves; and without curves and
arcs a chain has one segment less than its figure has points, and one more if it is closed. -/
theorem chains_penAfter (curveSteps : Nat) (commands : List (Command α)) :
    List.Forall₂ (Figure.Makes curveSteps) (figures Point.origin commands)
        (penAfter curveSteps commands).outline.chains.toList ∧
      (Anchored commands →
        (penAfter curveSteps commands).outline.chains.size = commands.countP Command.moves) ∧
      ((∀ command ∈ commands, command.straight = true) →
        ∀ f ∈ figures Point.origin commands,
          f.segmentCount curveSteps = f.points.length - 1 + if f.closed then 1 else 0) := by
  obtain ⟨made, chains, figuresMade⟩ := chains_resting curveSteps Point.origin commands #[]
  have all : (penAfter curveSteps commands).outline.chains.toList = made := chains
  refine ⟨all ▸ figuresMade, ?_, ?_⟩
  · intro anchored
    rw [← Array.length_toList, all, ← figuresMade.length_eq, length_figures_of_anchored anchored]
  · intro straight f member
    have drawing := drawing_of_mem_figures member
    rw [Figure.segmentCount, segmentCount_of_straight curveSteps f.start
      (fun command drawn => (drawing command drawn).1)
      (fun command drawn => straight command (drawing command drawn).2)]
    simp [Figure.points]

/-- A triangle that is closed, a single point, and a line that is left open. -/
def threeFigures : List (Command Float) :=
  [.moveTo ⟨0, 0⟩, .lineTo ⟨4, 0⟩, .lineTo ⟨4, 3⟩, .close ⟨0, 0⟩, .close ⟨0, 0⟩, .moveTo ⟨7, 7⟩,
    .moveTo ⟨5, 5⟩, .lineTo ⟨6, 6⟩]

theorem chains_threeFigures :
    Anchored threeFigures ∧ (∀ command ∈ threeFigures, command.straight = true) ∧
      (penAfter 24 threeFigures).outline.chains.size = 3 ∧
      (figures Point.origin threeFigures).map (Figure.segmentCount 24) = [3, 0, 1] ∧
      ∀ f ∈ figures Point.origin threeFigures,
        f.segmentCount 24 = f.points.length - 1 + if f.closed then 1 else 0 := by
  have anchored : Anchored threeFigures :=
    ⟨by simp [threeFigures, Command.draws], by simp [threeFigures, Command.draws, Command.closes]⟩
  have straight : ∀ command ∈ threeFigures, command.straight = true := by
    simp [threeFigures, Command.straight]
  obtain ⟨-, count, law⟩ := chains_penAfter 24 threeFigures
  refine ⟨anchored, straight, count anchored, ?_, law straight⟩
  decide +kernel

end PathData
end VectorPaint
