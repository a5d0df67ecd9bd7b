import VectorPaint.Curve.Flatten
import VectorPaint.Outline.Pen
import VectorPaint.Proofs.Outline.Linked

/-!
Runs of a pen. The segments of a flattening follow each other, whatever the curve is and however it
is sampled. Whatever is drawn and however often an outline is handed out, the chains of all outlines
are linked, and a pen that has handed one out draws on like a new one. Arcs and other curves are
sampled, so their first and last points need not be the ones asked for; the chain stays whole
because these two are moved to where they belong.
-/
namespace VectorPaint.Flattening

variable {κ α : Type} [Scalar α] [Curve κ α]

theorem toList_of_unfinished {f : Flattening κ α} (unfinished : f.taken < f.steps) :
    f.toList = ⟨f.previous, f.vertex⟩ ::
      toList { f with taken := f.taken + 1, previous := f.vertex } := by
  rw [toList]
  split
  · rename_i step
    simp [next?, unfinished] at step
  · rename_i step
    simp only [next?, if_pos unfinished, Option.some.injEq, Prod.mk.injEq] at step
    obtain ⟨rfl, rfl⟩ := step
    rfl

theorem toList_of_finished {f : Flattening κ α} (finished : ¬ f.taken < f.steps) :
    f.toList = [] := by
  rw [toList]
  split
  · rfl
  · rename_i step
    simp [next?, finished] at step

/-- The segments lead on from the point that was reached before. -/
theorem leads_toList (f : Flattening κ α) : ∃ q, Leads f.previous f.toList q := by
  by_cases unfinished : f.taken < f.steps
  · obtain ⟨q, onward⟩ := leads_toList { f with taken := f.taken + 1, previous := f.vertex }
    rw [toList_of_unfinished unfinished]
    exact ⟨q, rfl, onward⟩
  · rw [toList_of_finished unfinished]
    exact ⟨f.previous, rfl⟩
termination_by f.remaining
decreasing_by
  simp only [remaining]
  omega

/-- A flattening has a segment even if none was asked for. -/
theorem toList_flatten_ne_nil (curve : κ) (steps : Nat) :
    (Curve.flatten curve steps).toList ≠ [] := by
  rw [toList_of_unfinished (by simp only [Curve.flatten]; omega)]
  exact List.cons_ne_nil _ _

end VectorPaint.Flattening

namespace VectorPaint.Pen

variable {α : Type} {pen : Pen α} {curveSteps : Nat}

/-- What a pen can be told to do. -/
inductive Action (α : Type) where
  | moveTo (p : Point α)
  | lineTo (p : Point α)
  | quadTo (control p : Point α)
  | cubicTo (control₁ control₂ p : Point α)
  | arcTo (radii : Point α) (rotation : α) (large sweep : Bool) (p : Point α)
  | ellipse (center : Point α) (rx ry : α) (steps : Nat)
  | close
  | build

/-- What holds of a pen at all times: the open chain leads from its start to the position, without
an open chain the position is the start of the last one, and the finished chains are linked. -/
structure Consistent (curveSteps : Nat) (pen : Pen α) : Prop where
  steps : pen.curveSteps = max curveSteps 1
  drawing : ∀ segments, pen.pending = some segments →
    Leads pen.chainStart segments.toList pen.position
  resting : pen.pending = none → pen.position = pen.chainStart
  finished : ∀ c ∈ pen.finished, c.Linked

/-- Pinned segments lead from the one point to the other, wherever they led before. -/
theorem leads_pinEnds {segments : Array (Segment α)} {p q : Point α}
    (start stop : Point α) (there : Leads p segments.toList q)
    (some_segment : segments.toList ≠ []) :
    Leads start (pinEnds segments start stop).toList stop := by
  obtain ⟨segments⟩ := segments
  cases segments with
  | nil => exact absurd rfl some_segment
  | cons s rest =>
    have pinned : Leads start ({ s with start } :: rest) q := ⟨rfl, there.2⟩
    have moved := pinned.modify_last (r := stop) (List.cons_ne_nil _ _)
    simpa [pinEnds] using moved

namespace Consistent

/-- With no chain open, drawing goes on where the last chain started. -/
theorem leads_pending (ok : Consistent curveSteps pen) :
    Leads pen.chainStart (pen.pending.getD #[]).toList pen.position := by
  cases opened : pen.pending with
  | none => exact (ok.resting opened).symm
  | some segments => exact ok.drawing segments opened

theorem lift_finished (ok : Consistent curveSteps pen) : ∀ c ∈ pen.lift.finished, c.Linked := by
  unfold lift
  cases opened : pen.pending with
  | none => exact ok.finished
  | some segments =>
    intro c member
    rcases Array.mem_push.mp member with before | rfl
    · exact ok.finished c before
    · exact Chain.linked_open (ok.drawing segments opened)

theorem moveTo (ok : Consistent curveSteps pen) (p : Point α) :
    Consistent curveSteps (pen.moveTo p) where
  steps := by
    rw [← ok.steps]
    unfold Pen.moveTo lift
    cases pen.pending <;> rfl
  drawing := by
    rintro segments ⟨⟩
    rfl
  resting := nofun
  finished := ok.lift_finished

/-- Everything that is drawn is appended to the open chain. -/
theorem append (ok : Consistent curveSteps pen) {segments : Array (Segment α)} {target : Point α}
    (onward : Leads pen.position segments.toList target) :
    Consistent curveSteps (pen.append segments target) where
  steps := ok.steps
  drawing := by
    rintro all ⟨⟩
    rw [Array.toList_append]
    exact ok.leads_pending.append onward
  resting := nofun
  finished := ok.finished

theorem lineTo (ok : Consistent curveSteps pen) (p : Point α) :
    Consistent curveSteps (pen.lineTo p) :=
  ok.append ⟨rfl, rfl⟩

theorem close (ok : Consistent curveSteps pen) : Consistent curveSteps pen.close := by
  unfold Pen.close
  cases opened : pen.pending with
  | none => exact ok
  | some segments =>
    refine ⟨ok.steps, nofun, fun _ => rfl, ?_⟩
    intro c member
    rcases Array.mem_push.mp member with before | rfl
    · exact ok.finished c before
    · exact Chain.linked_closed (ok.drawing segments opened)

theorem lines (ok : Consistent curveSteps pen) (points : List (Point α)) :
    Consistent curveSteps (points.foldl Pen.lineTo pen) := by
  induction points generalizing pen with
  | nil => exact ok
  | cons p rest ih => exact ih (ok.lineTo p)

variable [Scalar α]

/-- The samples of a curve may be off at both ends; the chain is whole nevertheless. -/
theorem curveTo {κ : Type} [Curve κ α] (ok : Consistent curveSteps pen) (curve : κ)
    (target : Point α) : Consistent curveSteps (pen.curveTo curve target) := by
  obtain ⟨q, there⟩ := Flattening.leads_toList (Curve.flatten curve pen.curveSteps)
  exact ok.append
    (leads_pinEnds _ _ there (Flattening.toList_flatten_ne_nil curve pen.curveSteps))

theorem arcTo (ok : Consistent curveSteps pen) (radii : Point α) (rotation : α)
    (large sweep : Bool) (p : Point α) :
    Consistent curveSteps (pen.arcTo radii rotation large sweep p) := by
  unfold Pen.arcTo
  split
  · exact ok.lineTo p
  · exact ok.curveTo _ p

theorem ellipse (ok : Consistent curveSteps pen) (center : Point α) (rx ry : α) (steps : Nat) :
    Consistent curveSteps (pen.ellipse center rx ry steps) :=
  ((ok.moveTo _).lines _).close

/-- Nothing of what was drawn stays in a pen that has handed it out. -/
theorem build_snd (ok : Consistent curveSteps pen) : pen.build.2 = new curveSteps := by
  unfold build lift new
  cases opened : pen.pending <;> simp [opened, ok.steps]

end Consistent

variable [Scalar α]

theorem consistent_new (curveSteps : Nat) : Consistent curveSteps (new curveSteps : Pen α) where
  steps := rfl
  drawing := nofun
  resting _ := rfl
  finished := by simp [new]

/-- The pen after one action, and the outline that the action hands out, if any. -/
def act (pen : Pen α) : Action α → List (Outline α) × Pen α
  | .moveTo p => ([], pen.moveTo p)
  | .lineTo p => ([], pen.lineTo p)
  | .quadTo control p => ([], pen.quadTo control p)
  | .cubicTo control₁ control₂ p => ([], pen.cubicTo control₁ control₂ p)
  | .arcTo radii rotation large sweep p => ([], pen.arcTo radii rotation large sweep p)
  | .ellipse center rx ry steps => ([], pen.ellipse center rx ry steps)
  | .close => ([], pen.close)
  | .build => ([pen.build.1], pen.build.2)

/-- The pen after all actions, and the outlines they hand out. -/
def run (pen : Pen α) : List (Action α) → List (Outline α) × Pen α
  | [] => ([], pen)
  | action :: rest =>
    let after := pen.act action
    let later := run after.2 rest
    (after.1 ++ later.1, later.2)

namespace Consistent

/-- One action keeps a pen consistent, and what it hands out is linked. -/
theorem act (ok : Consistent curveSteps pen) (action : Action α) :
    Consistent curveSteps (pen.act action).2 ∧ ∀ o ∈ (pen.act action).1, o.Linked := by
  cases action with
  | moveTo p => exact ⟨ok.moveTo p, nofun⟩
  | lineTo p => exact ⟨ok.lineTo p, nofun⟩
  | quadTo control p => exact ⟨ok.curveTo _ p, nofun⟩
  | cubicTo control₁ control₂ p => exact ⟨ok.curveTo _ p, nofun⟩
  | arcTo radii rotation large sweep p => exact ⟨ok.arcTo radii rotation large sweep p, nofun⟩
  | ellipse center rx ry steps => exact ⟨ok.ellipse center rx ry steps, nofun⟩
  | close => exact ⟨ok.close, nofun⟩
  | build =>
    refine ⟨?_, ?_⟩
    · simp only [Pen.act, ok.build_snd]
      exact consistent_new curveSteps
    · intro o member
      obtain rfl := List.mem_singleton.mp member
      exact ok.lift_finished

/-- So do any number of actions. -/
theorem run (ok : Consistent curveSteps pen) (actions : List (Action α)) :
    Consistent curveSteps (pen.run actions).2 ∧ ∀ o ∈ (pen.run actions).1, o.Linked := by
  induction actions generalizing pen with
  | nil => exact ⟨ok, nofun⟩
  | cons action rest ih =>
    obtain ⟨okAfter, made⟩ := ok.act action
    obtain ⟨okLater, more⟩ := ih okAfter
    refine ⟨okLater, ?_⟩
    intro o member
    rcases List.mem_append.mp member with now | later
    · exact made o now
    · exact more o later

end Consistent

/-- Every chain of every outline that a pen hands out is linked, a pen without an open chain rests
at the start of the last one, and a pen that has handed out an outline then does what a new pen
would do. -/
theorem run_new_linked (curveSteps : Nat) (actions : List (Action α)) :
    (∀ o ∈ (run (new curveSteps) actions).1, ∀ c ∈ o.chains, c.Linked) ∧
      ((run (new curveSteps) actions).2.pending = none →
        (run (new curveSteps) actions).2.position = (run (new curveSteps) actions).2.chainStart) ∧
      ∀ more : List (Action α),
        run (run (new curveSteps) actions).2.build.2 more = run (new curveSteps) more := by
  obtain ⟨ok, linked⟩ := (consistent_new curveSteps).run actions
  refine ⟨linked, ok.resting, ?_⟩
  intro more
  rw [ok.build_snd]

end VectorPaint.Pen
