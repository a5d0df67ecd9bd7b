import VectorPaint.Proofs.PathData.Trail

/-!
Where path data can leave the finite numbers. Every number that is written is finite, or its text is
refused. What is computed from them is not looked at again: the segments of an outline are finite
just if the points are that its commands touch. Absolute commands that draw straight lines compute
nothing, so their segments are finite without further ado.
-/
namespace VectorPaint

variable {α : Type} [Scalar α]

/-- The points that are touched by drawing from a point through further ones. -/
def touched {α : Type} (p : Point α) (points : List (Point α)) : List (Point α) :=
  if points.isEmpty then [] else p :: points

theorem finite_through_iff {p : Point α} {points : List (Point α)} :
    (∀ s ∈ through p points, s.isFinite = true) ↔
      ∀ q ∈ touched p points, q.isFinite = true := by
  cases points with
  | nil => simp [through, touched]
  | cons first rest =>
    simp only [touched, List.isEmpty_cons, Bool.false_eq_true, if_false]
    induction rest generalizing p first with
    | nil => simp [through, Segment.isFinite]
    | cons second rest ih =>
      have onward := ih (p := first) second
      rw [through, List.forall_mem_cons, onward, List.forall_mem_cons (a := p),
        List.forall_mem_cons (a := first), Segment.isFinite, Bool.and_eq_true]
      constructor
      · rintro ⟨⟨here, next⟩, -, later⟩
        exact ⟨here, next, later⟩
      · rintro ⟨here, next, later⟩
        exact ⟨⟨here, next⟩, next, later⟩

/-- A ring of segments touches each of its points. -/
theorem finite_ring_iff {first : Point α} {rest : List (Point α)} :
    (∀ s ∈ through first (rest ++ [first]), s.isFinite = true) ↔
      ∀ p ∈ first :: rest, p.isFinite = true := by
  have some : (rest ++ [first]).isEmpty = false := by simp
  rw [finite_through_iff, touched, some, if_neg Bool.false_ne_true, List.forall_mem_cons,
    List.forall_mem_append, List.forall_mem_singleton, List.forall_mem_cons]
  constructor
  · rintro ⟨here, others, -⟩
    exact ⟨here, others⟩
  · rintro ⟨here, others⟩
    exact ⟨here, others, here⟩

theorem finite_touched {p : Point α} {points : List (Point α)} (here : p.isFinite = true)
    (others : ∀ q ∈ points, q.isFinite = true) : ∀ q ∈ touched p points, q.isFinite = true := by
  unfold touched
  split
  · exact List.forall_mem_nil _
  · exact List.forall_mem_cons.mpr ⟨here, others⟩

theorem Point.isFinite_iff {p : Point α} : p.isFinite = true ↔
    ∀ x ∈ [p.x, p.y], Scalar.isFinite x = true := by
  simp [Point.isFinite]

namespace PathData

variable {context : Context α} {curveSteps : Nat} {text rest : List Char}

/-- The points that commands touch one after the other. -/
def reached (curveSteps : Nat) (context : Context α) : List (Command α) → List (Point α)
  | [] => []
  | command :: more =>
    touched context.position (context.corners curveSteps command) ++
      reached curveSteps (context.after command) more

theorem finite_trail_iff {commands : List (Command α)} :
    (∀ s ∈ trail curveSteps context commands, s.isFinite = true) ↔
      ∀ p ∈ reached curveSteps context commands, p.isFinite = true := by
  induction commands generalizing context with
  | nil => simp [trail, reached]
  | cons command more ih =>
    rw [trail, reached, List.forall_mem_append, List.forall_mem_append, finite_through_iff, ih]

/-- The numbers of a group as they are written. -/
def Operands.numbers {α : Type} : Operands α → List α
  | .move p | .line p | .smoothQuadratic p => [p.x, p.y]
  | .horizontal x => [x]
  | .vertical y => [y]
  | .cubic control₁ control₂ p => [control₁.x, control₁.y, control₂.x, control₂.y, p.x, p.y]
  | .smoothCubic control p | .quadratic control p => [control.x, control.y, p.x, p.y]
  | .arc radii rotation _ _ p => [radii.x, radii.y, rotation, p.x, p.y]
  | .close => []

theorem finite_of_number {x : Float} (done : number text = .ok (x, rest)) :
    x.isFinite = true := by
  simp only [number_apply] at done
  split at done
  · cases done
  · split at done
    · cases done
    · cases done
    · split at done
      · cases done
        assumption
      · cases done

theorem finite_of_point {p : Point Float} (done : point text = .ok (p, rest)) :
    p.x.isFinite = true ∧ p.y.isFinite = true := by
  obtain ⟨x, _, first, done⟩ := Reader.bind_eq_ok done
  obtain ⟨y, _, second, done⟩ := Reader.bind_eq_ok done
  cases done
  exact ⟨finite_of_number first, finite_of_number second⟩

theorem finite_of_operands {verb : Verb} {read : Operands Float}
    (done : operands verb text = .ok (read, rest)) : ∀ x ∈ read.numbers, x.isFinite = true := by
  cases verb with
  | close =>
    cases done
    exact List.forall_mem_nil _
  | horizontal | vertical =>
    obtain ⟨x, _, first, done⟩ := Reader.bind_eq_ok done
    cases done
    simpa [Operands.numbers] using finite_of_number first
  | move | line | smoothQuadratic =>
    obtain ⟨p, _, first, done⟩ := Reader.bind_eq_ok done
    cases done
    simpa [Operands.numbers] using finite_of_point first
  | smoothCubic | quadratic =>
    obtain ⟨control, _, first, done⟩ := Reader.bind_eq_ok done
    obtain ⟨p, _, second, done⟩ := Reader.bind_eq_ok done
    cases done
    simpa [Operands.numbers, and_assoc] using
      And.intro (finite_of_point first) (finite_of_point second)
  | cubic =>
    obtain ⟨control₁, _, first, done⟩ := Reader.bind_eq_ok done
    obtain ⟨control₂, _, second, done⟩ := Reader.bind_eq_ok done
    obtain ⟨p, _, third, done⟩ := Reader.bind_eq_ok done
    cases done
    simpa [Operands.numbers, and_assoc] using
      And.intro (finite_of_point first) (And.intro (finite_of_point second) (finite_of_point third))
  | arc =>
    obtain ⟨radii, _, first, done⟩ := Reader.bind_eq_ok done
    obtain ⟨rotation, _, second, done⟩ := Reader.bind_eq_ok done
    obtain ⟨large, _, -, done⟩ := Reader.bind_eq_ok done
    obtain ⟨sweep, _, -, done⟩ := Reader.bind_eq_ok done
    obtain ⟨p, _, third, done⟩ := Reader.bind_eq_ok done
    cases done
    simpa [Operands.numbers, and_assoc] using
      And.intro (finite_of_point first)
        (And.intro (finite_of_number second) (finite_of_point third))

/-- All numbers of all groups are finite, even where the text has a fault later on. -/
theorem finite_of_groups (previous : Option Letter) (text : List Char) :
    ∀ group ∈ (groups previous text).1, ∀ x ∈ group.operands.numbers, x.isFinite = true := by
  fun_induction groups previous text with
  | case1 => exact List.forall_mem_nil _
  | case2 => exact List.forall_mem_nil _
  | case3 previous text step found more fault tail ih =>
    rw [tail] at ih
    obtain ⟨c, rest', left, -, -, taken⟩ := next?_eq_some found
    rw [List.forall_mem_cons]
    exact ⟨finite_of_operands taken, ih⟩

/-- The group draws no curve, and its points are absolute. -/
def Group.isPlain {α : Type} (group : Group α) : Bool :=
  match group.operands with
  | .move _ | .line _ | .horizontal _ | .vertical _ => !group.relative
  | .close => true
  | _ => false

/-- A plain group draws to the point that is written, or along an axis from where the reader is, or
back to the start of the chain. -/
theorem finite_resolve_of_plain {group : Group α} (here : context.position.isFinite = true)
    (back : context.chainStart.isFinite = true) (plain : group.isPlain = true)
    (written : ∀ x ∈ group.operands.numbers, Scalar.isFinite x = true) :
    (∀ p ∈ context.corners curveSteps (context.resolve group), p.isFinite = true) ∧
      (context.resolve group).target.isFinite = true ∧
      (context.after (context.resolve group)).chainStart.isFinite = true := by
  obtain ⟨relative, operands⟩ := group
  obtain ⟨across, down⟩ := Bool.and_eq_true_iff.mp here
  cases operands with
  | move p =>
    obtain rfl : relative = false := by simpa [Group.isPlain] using plain
    exact ⟨List.forall_mem_nil _, Point.isFinite_iff.mpr written, Point.isFinite_iff.mpr written⟩
  | line p =>
    obtain rfl : relative = false := by simpa [Group.isPlain] using plain
    have target := Point.isFinite_iff.mpr written
    exact ⟨List.forall_mem_singleton.mpr target, target, back⟩
  | horizontal x =>
    obtain rfl : relative = false := by simpa [Group.isPlain] using plain
    have target : (⟨x, context.position.y⟩ : Point α).isFinite = true :=
      Bool.and_eq_true_iff.mpr ⟨written x List.mem_cons_self, down⟩
    exact ⟨List.forall_mem_singleton.mpr target, target, back⟩
  | vertical y =>
    obtain rfl : relative = false := by simpa [Group.isPlain] using plain
    have target : (⟨context.position.x, y⟩ : Point α).isFinite = true :=
      Bool.and_eq_true_iff.mpr ⟨across, written y List.mem_cons_self⟩
    exact ⟨List.forall_mem_singleton.mpr target, target, back⟩
  | close =>
    refine ⟨?_, back, back⟩
    simp only [Context.resolve, Context.corners]
    split
    · exact List.forall_mem_singleton.mpr back
    · exact List.forall_mem_nil _
  | cubic | smoothCubic | quadratic | smoothQuadratic | arc => cases plain

/-- Plain groups touch only finite points. -/
theorem finite_reached_of_plain {read : List (Group α)} (here : context.position.isFinite = true)
    (back : context.chainStart.isFinite = true)
    (plain : ∀ group ∈ read, group.isPlain = true)
    (written : ∀ group ∈ read, ∀ x ∈ group.operands.numbers, Scalar.isFinite x = true) :
    ∀ p ∈ reached curveSteps context (resolveAll context read), p.isFinite = true := by
  induction read generalizing context with
  | nil => exact List.forall_mem_nil _
  | cons group more ih =>
    obtain ⟨plain, plainMore⟩ := List.forall_mem_cons.mp plain
    obtain ⟨written, writtenMore⟩ := List.forall_mem_cons.mp written
    obtain ⟨corners, target, start⟩ := finite_resolve_of_plain here back plain written
    rw [resolveAll, reached, List.forall_mem_append]
    exact ⟨finite_touched here corners, ih target start plainMore writtenMore⟩

section Texts

variable {text : String} {o : Outline Float}

/-- The points that the commands of a text touch. -/
def pointsReached (curveSteps : Nat) (text : String) : List (Point Float) :=
  reached curveSteps Context.initial (commands text).1

theorem finite_outline_iff (done : outline curveSteps text = .ok o) :
    (∀ s ∈ o.segments, s.isFinite = true) ↔
      ∀ p ∈ pointsReached curveSteps text, p.isFinite = true := by
  rw [segments_of_outline done]
  exact finite_trail_iff

theorem finite_pointsReached_of_plain (curveSteps : Nat)
    (plain : ∀ group ∈ (groups none text.toList).1, group.isPlain = true) :
    ∀ p ∈ pointsReached curveSteps text, p.isFinite = true :=
  finite_reached_of_plain rfl rfl plain (finite_of_groups none text.toList)

end Texts

end PathData
end VectorPaint
