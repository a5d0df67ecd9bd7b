import Mathlib
import VectorPaint.Proofs.Outline.Drawn
import VectorPaint.Proofs.Raster.Rows
import VectorPaint.Proofs.Scalar.Binary64

/-!
No row is left open. A segment whose edge crosses a height adds to the winding there what its ends
tell: one where it gets below the height, minus one where it gets above it, and nothing where it
ends on the side on which it begins. The segments around an area lead back to where they began, so
at every height as many edges go down as go up, every crossing has a partner, and every span that is
begun is ended. Nothing but comparisons of heights decides this, so it holds of floats without any
allowance for rounding.
-/
namespace VectorPaint

variable {α : Type}

/-- What a measure of points gains along segments depends on their ends alone. -/
theorem Leads.sum_gain {p q : Point α} {segments : List (Segment α)} (measure : Point α → ℤ)
    (there : Leads p segments q) :
    (segments.map fun s => measure s.stop - measure s.start).sum = measure q - measure p := by
  induction segments generalizing p with
  | nil =>
    obtain rfl : p = q := there
    exact (Int.sub_self _).symm
  | cons s rest ih =>
    obtain ⟨rfl, onward⟩ := there
    rw [List.map_cons, List.sum_cons, ih onward]
    omega

/-- Around an area nothing is gained, whatever is measured. -/
theorem Outline.Linked.sum_gain_border {o : Outline α} (linked : o.Linked)
    (measure : Point α → ℤ) :
    (o.border.map fun s => measure s.stop - measure s.start).sum = 0 := by
  have closed : ∀ c ∈ o.chains.toList, c.Linked := fun c member => linked c (by simpa using member)
  unfold Outline.border
  generalize o.chains.toList = chains at closed
  induction chains with
  | nil => rfl
  | cons c rest ih =>
    have around := (closed c List.mem_cons_self).leads_border.sum_gain measure
    rw [List.flatMap_cons, List.map_append, List.sum_append, around,
      ih fun d member => closed d (List.mem_cons_of_mem _ member), Int.sub_self, Int.zero_add]

namespace Fill

section Crossings

variable {crossings : List (Crossing α)}

theorem turns_append (first second : List (Crossing α)) :
    turns (first ++ second) = turns first + turns second := by
  simp [turns]

/-- The crossings that go down and those that go up are all there are. -/
theorem exists_counts (single : ∀ crossing ∈ crossings, crossing.winding = 1 ∨
    crossing.winding = -1) :
    ∃ down up : ℕ, turns crossings = down - up ∧ crossings.length = down + up := by
  induction crossings with
  | nil => exact ⟨0, 0, rfl, rfl⟩
  | cons crossing rest ih =>
    obtain ⟨down, up, sum, length⟩ := ih fun other member =>
      single other (List.mem_cons_of_mem _ member)
    simp only [turns, List.map_cons, List.sum_cons, List.length_cons] at sum ⊢
    rcases single crossing List.mem_cons_self with one | one
    · exact ⟨down + 1, up, by omega, by omega⟩
    · exact ⟨down, up + 1, by omega, by omega⟩

theorem even_length_of_turns (single : ∀ crossing ∈ crossings, crossing.winding = 1 ∨
    crossing.winding = -1) (closed : turns crossings = 0) : Even crossings.length := by
  obtain ⟨down, up, sum, length⟩ := exists_counts single
  exact ⟨down, by omega⟩

/-- What is behind a crossing makes up for what is before it, so half of the crossings bound the
winding between them. -/
theorem two_mul_abs_turns_le {before after : List (Crossing α)}
    (single : ∀ crossing ∈ before ++ after, crossing.winding = 1 ∨ crossing.winding = -1)
    (closed : turns (before ++ after) = 0) :
    2 * |turns before| ≤ (before ++ after).length := by
  obtain ⟨first, second⟩ := List.forall_mem_append.mp single
  obtain ⟨down, up, sum, length⟩ := exists_counts first
  obtain ⟨down', up', sum', length'⟩ := exists_counts second
  rw [turns_append] at closed
  have bound : |turns before| ≤ ((before ++ after).length : ℤ) / 2 := by
    rw [abs_le, List.length_append]
    constructor <;> omega
  omega

/-- If no crossing lacks a partner, the ends of the spans are all crossings there are. -/
theorem ends_evenOddSpans (even : Even crossings.length) :
    ((evenOddSpans crossings).flatMap fun span => [span.1, span.2]) =
      crossings.map Crossing.x := by
  induction crossings using evenOddSpans.induct with
  | case1 enter leave rest ih =>
    have restEven : Even rest.length := by simpa [Nat.even_add_one] using even
    rw [evenOddSpans, List.flatMap_cons, ih restEven]
    rfl
  | case2 crossings short =>
    rcases crossings with _ | ⟨enter, _ | ⟨leave, rest⟩⟩
    · rfl
    · simp at even
    · exact absurd rfl (short enter leave rest)

/-- What comes first decides about what follows only by its winding and the start it has left. -/
theorem windingSpans_append (winding : ℤ) (start : α) (first second : List (Crossing α)) :
    ∃ left, windingSpans winding start (first ++ second) =
      windingSpans winding start first ++ windingSpans (winding + turns first) left second := by
  induction first generalizing winding start with
  | nil => exact ⟨start, by simp [windingSpans, turns]⟩
  | cons crossing rest ih =>
    have sum : winding + turns (crossing :: rest) = winding + crossing.winding + turns rest := by
      simp [turns, add_assoc]
    simp only [List.cons_append, windingSpans, sum]
    split
    · exact ih _ _
    · split
      · obtain ⟨left, same⟩ := ih (winding + crossing.winding) start
        exact ⟨left, by rw [same, List.cons_append]⟩
      · exact ih _ _

/-- A span that is under way is ended, if all windings add up to zero. -/
theorem exists_leave {winding : ℤ} (start : α) (inside : winding ≠ 0)
    (closed : winding + turns crossings = 0) :
    ∃ leave ∈ crossings, (start, leave.x) ∈ windingSpans winding start crossings := by
  induction crossings generalizing winding with
  | nil => exact absurd (by simpa [turns] using closed) inside
  | cons crossing rest ih =>
    simp only [windingSpans, inside, false_and, if_false, ne_eq, not_false_eq_true, true_and]
    split
    · exact ⟨crossing, List.mem_cons_self, List.mem_cons_self⟩
    · rename_i onward
      have restClosed : winding + crossing.winding + turns rest = 0 := by
        rw [← closed]
        simp [turns, add_assoc]
      obtain ⟨leave, member, ended⟩ := ih onward restClosed
      exact ⟨leave, List.mem_cons_of_mem _ member, ended⟩

/-- A span is begun where the winding was zero, and a later crossing ends it. -/
theorem exists_leave_of_enter (start : α) {before after : List (Crossing α)} {enter : Crossing α}
    (outside : turns before = 0) (enters : enter.winding ≠ 0)
    (closed : turns (before ++ enter :: after) = 0) :
    ∃ leave ∈ after, (enter.x, leave.x) ∈ windingSpans 0 start (before ++ enter :: after) := by
  have rest : enter.winding + turns after = 0 := by
    rw [turns_append, outside, zero_add] at closed
    exact closed
  obtain ⟨leave, member, ended⟩ := exists_leave enter.x enters rest
  obtain ⟨left, same⟩ := windingSpans_append 0 start before (enter :: after)
  refine ⟨leave, member, ?_⟩
  rw [same, outside, windingSpans]
  simp [enters, ended]

end Crossings

section Windings

variable [Scalar α] {o : Outline α} {y : α}

/-- The edges around an outline that cross a height. -/
def crossed (o : Outline α) (y : α) : List (Edge α) :=
  (edges o).filter fun e => (e.crossing? y).isSome

/-- What a segment adds to the winding at a height. -/
def windingAt (y : α) (s : Segment α) : ℤ :=
  (((Edge.ofSegment? s).bind (·.crossing? y)).map Crossing.winding).getD 0

theorem winding_of_crossing {e : Edge α} {crossing : Crossing α}
    (crosses : e.crossing? y = some crossing) : crossing.winding = e.winding := by
  unfold Edge.crossing? at crosses
  split at crosses
  · cases crosses
    rfl
  · cases crosses

theorem winding_of_edge {s : Segment α} {e : Edge α} (edge : Edge.ofSegment? s = some e) :
    e.winding = 1 ∨ e.winding = -1 := by
  simp only [Edge.ofSegment?] at edge
  split at edge
  · cases edge
  · by_cases down : s.start.y < s.stop.y
    · rw [if_pos down] at edge
      cases edge
      exact .inl rfl
    · rw [if_neg down] at edge
      cases edge
      exact .inr rfl

/-- Sorting loses no crossing. -/
theorem windings_crossings_perm (o : Outline α) (y : α) :
    ((crossings (edges o) y).map Crossing.winding).Perm ((crossed o y).map Edge.winding) := by
  refine ((List.mergeSort_perm _ _).map _).trans (List.Perm.of_eq ?_)
  unfold crossed
  induction edges o with
  | nil => rfl
  | cons e rest ih =>
    cases crosses : e.crossing? y with
    | none => simpa [crosses] using ih
    | some crossing => simpa [crosses, winding_of_crossing crosses] using ih

theorem length_crossings (o : Outline α) (y : α) :
    (crossings (edges o) y).length = (crossed o y).length := by
  simpa using (windings_crossings_perm o y).length_eq

theorem turns_crossings (o : Outline α) (y : α) :
    turns (crossings (edges o) y) = ((crossed o y).map Edge.winding).sum :=
  (windings_crossings_perm o y).sum_eq

theorem single_of_mem_crossings {crossing : Crossing α}
    (member : crossing ∈ crossings (edges o) y) :
    crossing.winding = 1 ∨ crossing.winding = -1 := by
  obtain ⟨e, edge, crosses⟩ := List.mem_filterMap.mp (List.mem_mergeSort.mp member)
  obtain ⟨s, -, made⟩ := List.mem_filterMap.mp edge
  rw [winding_of_crossing crosses]
  exact winding_of_edge made

theorem sum_winding_crossed (o : Outline α) (y : α) :
    ((crossed o y).map Edge.winding).sum = (o.border.map (windingAt y)).sum := by
  unfold crossed edges
  induction o.border with
  | nil => rfl
  | cons s rest ih =>
    rw [List.map_cons, List.sum_cons, ← ih, windingAt]
    cases edge : Edge.ofSegment? s with
    | none => simp [edge]
    | some e =>
      cases crosses : e.crossing? y with
      | none => simp [edge, crosses]
      | some crossing => simp [edge, crosses, winding_of_crossing crosses]

/-- If segments add to the winding what they gain, the windings around an area add up to zero. -/
theorem turns_crossings_eq_zero (linked : o.Linked) (measure : Point α → ℤ)
    (gains : ∀ s ∈ o.border, windingAt y s = measure s.stop - measure s.start) :
    turns (crossings (edges o) y) = 0 := by
  rw [turns_crossings, sum_winding_crossed, List.map_congr_left gains]
  exact linked.sum_gain_border measure

end Windings

/-- No edge crosses a height that is not determinate. -/
theorem crossing_eq_none {y : Float} (unknown : ¬ Binary64.Determinate y) (e : Edge Float) :
    e.crossing? y = none :=
  if_neg fun held => Binary64.not_le_of_indeterminate unknown held.1

/-- A finite segment adds to the winding what it gains by getting below the height. -/
theorem windingAt_eq_gain {s : Segment Float} (finite : s.isFinite = true) (y : Float) :
    windingAt y s = (if y < s.stop.y then 1 else 0) - (if y < s.start.y then 1 else 0) := by
  have ends := finite
  simp only [Segment.isFinite, Point.isFinite, Bool.and_eq_true] at ends
  have start := Binary64.determinate_of_isFinite ends.1.2
  have stop := Binary64.determinate_of_isFinite ends.2.2
  unfold windingAt
  by_cases known : Binary64.Determinate y
  · have level := Binary64.beq_iff_number start stop
    have down := Binary64.lt_iff_number start stop
    simp only [Binary64.lt_iff_number known start, Binary64.lt_iff_number known stop,
      Edge.ofSegment?, finite, Bool.not_true, Bool.false_or, level, down]
    rcases lt_trichotomy (Binary64.number s.start.y) (Binary64.number s.stop.y) with
      less | same | more
    · simp only [less, less.ne, if_true, if_false, Option.bind_some, Edge.crossing?,
        Binary64.le_iff_number start known, Binary64.lt_iff_number known stop]
      grind
    · simp [same]
    · simp only [more.ne', more.not_gt, if_false, Option.bind_some, Edge.crossing?,
        Binary64.le_iff_number stop known, Binary64.lt_iff_number known start]
      grind
  · simp only [crossing_eq_none known, Option.bind_fun_none]
    simp [Binary64.not_lt_of_indeterminate known]

/-- At every height the edges of a drawn outline with finite coordinates cross in pairs: their
number is even, and their windings add up to zero. So by the even-odd rule every crossing is an end
of a span. By the other rule the winding is zero after the last crossing, and wherever a crossing
takes it away from zero, a span begins that a later crossing ends. In between it is at most half the
number of edges, so integers of 32 bits count it right if there are fewer than `2 ^ 32` edges. -/
theorem crossings_balanced {o : Outline Float} (drawn : o.Drawn)
    (finite : ∀ s ∈ o.segments, s.isFinite = true) (y : Float) :
    Even (crossed o y).length ∧ ((crossed o y).map Edge.winding).sum = 0 ∧
      ((spans .evenOdd (crossings (edges o) y)).flatMap fun span => [span.1, span.2]) =
        (crossings (edges o) y).map Crossing.x ∧
      turns (crossings (edges o) y) = 0 ∧
      (∀ before enter after, crossings (edges o) y = before ++ enter :: after →
        turns before = 0 →
          ∃ leave ∈ after, (enter.x, leave.x) ∈ spans .nonZero (crossings (edges o) y)) ∧
      ∀ before after, crossings (edges o) y = before ++ after →
        2 * |turns before| ≤ (edges o).length := by
  have closed : turns (crossings (edges o) y) = 0 :=
    turns_crossings_eq_zero drawn.linked (fun p => if y < p.y then 1 else 0) fun s around =>
      windingAt_eq_gain (drawn.linked.finite_border finite s around) y
  have single : ∀ crossing ∈ crossings (edges o) y, crossing.winding = 1 ∨ crossing.winding = -1 :=
    fun _ member => single_of_mem_crossings member
  have even : Even (crossings (edges o) y).length := even_length_of_turns single closed
  refine ⟨length_crossings o y ▸ even, turns_crossings o y ▸ closed, ends_evenOddSpans even, closed,
    ?_, ?_⟩
  · intro before enter after parts outside
    have enters : enter.winding ≠ 0 := by
      have one := single enter (by simp [parts])
      omega
    rw [parts] at closed ⊢
    exact exists_leave_of_enter _ outside enters closed
  · intro before after parts
    have crossed_le : (crossings (edges o) y).length ≤ (edges o).length := by
      rw [length_crossings]
      exact List.length_filter_le _ _
    have bound := two_mul_abs_turns_le (parts ▸ single) (parts ▸ closed)
    rw [← parts] at bound
    exact bound.trans (Int.ofNat_le.mpr crossed_le)

/-- Two spires of a roof that is not closed; the tip of the one and a level ledge of the other are
at the same height. -/
def spires : Outline Float :=
  (Pen.new 24 |>.moveTo ⟨0, 0⟩ |>.lineTo ⟨4, 2.5⟩ |>.lineTo ⟨8, 0⟩ |>.lineTo ⟨8, 5⟩
    |>.lineTo ⟨6, 2.5⟩ |>.lineTo ⟨4, 2.5⟩).outline

theorem crossings_spires :
    (∀ s ∈ spires.segments, s.isFinite = true) ∧
      (crossed spires 2.5).map Edge.winding = [1, -1] ∧ turns (crossings (edges spires) 2.5) = 0 ∧
      Even (crossed spires 0).length := by
  have drawn : spires.Drawn :=
    .byPen 24 [.moveTo ⟨0, 0⟩, .lineTo ⟨4, 2.5⟩, .lineTo ⟨8, 0⟩, .lineTo ⟨8, 5⟩, .lineTo ⟨6, 2.5⟩,
      .lineTo ⟨4, 2.5⟩, .build] (List.mem_singleton.mpr rfl)
  have finite : ∀ s ∈ spires.segments, s.isFinite = true := by decide +kernel
  obtain ⟨-, -, -, closed, -⟩ := crossings_balanced drawn finite 2.5
  exact ⟨finite, by decide +kernel, closed, (crossings_balanced drawn finite 0).1⟩

end Fill
end VectorPaint
