import VectorPaint.Proofs.Outline.Through
import VectorPaint.Scalar.Binary64

/-!
Flattening call by call. A call hands out the first of the segments that are still to come and
leaves the others, so the calls hand out all segments in turn and then nothing any more. Between two
calls never more segments are taken than there are, and what is said to be left is what is left.
-/
namespace VectorPaint

section Vertices

variable {α : Type}

/-- The segments through points that are numbered. -/
theorem through_map_range' (point : Nat → Point α) (first count : Nat) :
    through (point first) ((List.range' (first + 1) count).map point) =
      (List.range' first count).map fun number => ⟨point number, point (number + 1)⟩ := by
  induction count generalizing first with
  | zero => rfl
  | succ count ih => exact congrArg (⟨point first, point (first + 1)⟩ :: ·) (ih (first + 1))

namespace Curve

variable {κ : Type} [Scalar α] [Curve κ α]

/-- The vertices of a flattening, from number zero on: samples of the curve between its two ends. -/
def vertex (curve : κ) (steps number : Nat) : Point α :=
  if number = 0 then start curve
  else if number = steps then stop curve
  else pointAt curve (Scalar.ofNat number / Scalar.ofNat steps)

/-- The segment from a vertex to the next one. -/
def side (curve : κ) (steps number : Nat) : Segment α :=
  ⟨vertex curve steps number, vertex curve steps (number + 1)⟩

variable (curve : κ) (steps : Nat)

theorem vertex_steps (positive : 0 < steps) :
    (vertex curve steps steps : Point α) = stop curve := by
  rw [vertex, if_neg (Nat.ne_of_gt positive), if_pos rfl]

theorem vertex_between {number : Nat} (positive : 0 < number) (before : number < steps) :
    (vertex curve steps number : Point α) =
      pointAt curve (Scalar.ofNat number / Scalar.ofNat steps) := by
  rw [vertex, if_neg (Nat.ne_of_gt positive), if_neg (Nat.ne_of_lt before)]

/-- The sides of a flattening are the segments between neighbouring vertices. -/
theorem toList_flatten_eq_sides :
    (flatten curve steps).toList =
      (List.range (max steps 1)).map (side (α := α) curve (max steps 1)) := by
  obtain ⟨m, count⟩ : ∃ m, max steps 1 = m + 1 := ⟨max steps 1 - 1, by omega⟩
  have inner : samples (α := α) curve (m + 1) =
      (List.range' 1 m).map (vertex curve (m + 1)) := by
    refine List.map_congr_left fun number member => ?_
    obtain ⟨positive, before⟩ := List.mem_range'_1.mp member
    exact (vertex_between curve (m + 1) positive (by omega)).symm
  have points : samples (α := α) curve (m + 1) ++ [stop curve] =
      (List.range' 1 (m + 1)).map (vertex curve (m + 1)) := by
    rw [inner, ← vertex_steps curve (m + 1) m.succ_pos, List.range'_1_concat, List.map_append,
      Nat.add_comm 1 m]
    rfl
  rw [toList_flatten, count, points, List.range_eq_range']
  exact through_map_range' (vertex curve (m + 1)) 0 (m + 1)

theorem exists_side_of_mem {curve : κ} {steps : Nat} {s : Segment α}
    (member : s ∈ (flatten curve steps).toList) :
    ∃ number, number < max steps 1 ∧ s = side curve (max steps 1) number := by
  rw [toList_flatten_eq_sides] at member
  obtain ⟨number, within, rfl⟩ := List.mem_map.mp member
  exact ⟨number, List.mem_range.mp within, rfl⟩

end Curve

end Vertices

namespace Flattening

variable {κ α : Type} [Scalar α] [Curve κ α]

/-- One call: the segment that it hands out, and the flattening after it. A call that hands out
nothing leaves the flattening as it is. -/
def call (f : Flattening κ α) : Option (Segment α) × Flattening κ α :=
  match f.next? with
  | none => (none, f)
  | some (s, g) => (some s, g)

/-- The flattening after some calls. -/
def after (f : Flattening κ α) : Nat → Flattening κ α
  | 0 => f
  | calls + 1 => (f.after calls).call.2

theorem call_of_unfinished {f : Flattening κ α} (unfinished : f.taken < f.steps) :
    f.call = (some ⟨f.previous, f.vertex⟩,
      { f with taken := f.taken + 1, previous := f.vertex }) := by
  rw [call, next?, if_pos unfinished]

theorem call_of_finished {f : Flattening κ α} (finished : ¬ f.taken < f.steps) :
    f.call = (none, f) := by
  rw [call, next?, if_neg finished]

/-- What one call does: it takes the first of the segments that are still to come. -/
theorem call_spec (f : Flattening κ α) :
    f.call.1 = f.toList.head? ∧ f.call.2.toList = f.toList.tail := by
  by_cases unfinished : f.taken < f.steps
  · rw [call_of_unfinished unfinished, toList_of_unfinished unfinished]
    exact ⟨rfl, rfl⟩
  · rw [call_of_finished unfinished, toList_of_finished unfinished]
    exact ⟨rfl, rfl⟩

theorem toList_after (f : Flattening κ α) (calls : Nat) :
    (f.after calls).toList = f.toList.drop calls := by
  induction calls with
  | zero => rfl
  | succ calls ih => rw [after, (call_spec _).2, ih, List.tail_drop]

theorem call_after (f : Flattening κ α) (calls : Nat) :
    (f.after calls).call.1 = f.toList[calls]? := by
  rw [(call_spec _).1, toList_after, List.head?_drop]

theorem length_toList (f : Flattening κ α) : f.toList.length = f.remaining := by
  by_cases unfinished : f.taken < f.steps
  · have onward := length_toList { f with taken := f.taken + 1, previous := f.vertex }
    rw [toList_of_unfinished unfinished, List.length_cons, onward]
    simp only [remaining]
    omega
  · rw [toList_of_finished unfinished, remaining, Nat.sub_eq_zero_of_le (Nat.not_lt.mp unfinished)]
    rfl
termination_by f.remaining
decreasing_by
  simp only [remaining]
  omega

theorem taken_le_call {f : Flattening κ α} (within : f.taken ≤ f.steps) :
    f.call.2.taken ≤ f.call.2.steps := by
  by_cases unfinished : f.taken < f.steps
  · rw [call_of_unfinished unfinished]
    exact unfinished
  · rw [call_of_finished unfinished]
    exact within

theorem taken_le_after {f : Flattening κ α} (within : f.taken ≤ f.steps) (calls : Nat) :
    (f.after calls).taken ≤ (f.after calls).steps := by
  induction calls with
  | zero => exact within
  | succ calls ih => exact taken_le_call ih

end Flattening

/-- The calls of a flattening into `steps` segments, or into one if none is asked for, hand out that
many segments and then nothing any more. The first one begins where the curve does, the others where
the one before ended, which is at the sample of that number; the last one ends where the curve does.
Before each call no more segments were taken than there are, and just as many are said to be left as
are still handed out. -/
theorem Curve.calls_of_flatten {κ α : Type} [Scalar α] [Curve κ α] (curve : κ) (steps : Nat) :
    let whole : Flattening κ α := flatten curve steps
    let segments := whole.toList
    let count := max steps 1
    (segments.length = count ∧ ∀ calls, (whole.after calls).call.1 = segments[calls]?) ∧
    segments.head?.map Segment.start = some (start curve) ∧
    (∀ number, 0 < number → number < count →
      segments[number - 1]?.map Segment.stop =
        some (pointAt curve (Scalar.ofNat number / Scalar.ofNat count))) ∧
    segments.getLast?.map Segment.stop = some (stop curve) ∧
    (∀ number s t, segments[number]? = some s → segments[number + 1]? = some t →
      t.start = s.stop) ∧
    ∀ calls, (whole.after calls).taken ≤ (whole.after calls).steps ∧
      (whole.after calls).toList = segments.drop calls ∧
      (whole.after calls).sizeHint =
        ((segments.drop calls).length, some (segments.drop calls).length) := by
  intro whole segments count
  have sides : segments = (List.range count).map (side curve count) :=
    toList_flatten_eq_sides curve steps
  have positive : 0 < count := Nat.lt_of_lt_of_le Nat.one_pos (Nat.le_max_right steps 1)
  have known {number : Nat} (within : number < count) :
      segments[number]? = some (side curve count number) := by
    rw [sides, List.getElem?_map, List.getElem?_range within, Option.map_some]
  have length : segments.length = count := by rw [sides, List.length_map, List.length_range]
  refine ⟨⟨length, whole.call_after⟩, ?_, ?_, ?_, ?_, ?_⟩
  · rw [List.head?_eq_getElem?, known positive]
    rfl
  · intro number after_start before
    have next : number - 1 + 1 = number := by omega
    rw [known (by omega), Option.map_some, side, next,
      vertex_between curve count after_start before]
  · have next : count - 1 + 1 = count := by omega
    rw [List.getLast?_eq_getElem?, length, known (by omega), Option.map_some, side, next,
      vertex_steps curve count positive]
  · intro number s t found found'
    have within : number + 1 < count := length ▸ (List.getElem?_eq_some_iff.mp found').1
    rw [known (by omega), Option.some.injEq] at found
    rw [known within, Option.some.injEq] at found'
    rw [← found, ← found']
    rfl
  · intro calls
    have left := whole.toList_after calls
    refine ⟨Flattening.taken_le_after (Nat.zero_le _) calls, left, ?_⟩
    rw [← left, Flattening.length_toList]
    rfl

/-- An arch from the origin, two units wide and one unit high. -/
def Quadratic.arch : Quadratic Float := ⟨⟨0, 0⟩, ⟨1, 2⟩, ⟨2, 0⟩⟩

/-- The second of four segments of the arch ends at its top, where the third one begins. -/
theorem Curve.calls_of_arch :
    let segments := (flatten Quadratic.arch 4).toList
    (0 < 2 ∧ 2 < max 4 1 ∧
      segments[1]?.map Segment.stop =
        some (pointAt Quadratic.arch (Scalar.ofNat 2 / Scalar.ofNat 4)) ∧
      (pointAt Quadratic.arch (Scalar.ofNat 2 / Scalar.ofNat 4) == (⟨1, 1⟩ : Point Float)) = true) ∧
    (∃ s t, segments[1]? = some s ∧ segments[2]? = some t ∧ t.start = s.stop) ∧
    ((flatten Quadratic.arch 4).after 3).sizeHint = (1, some 1) ∧
    ((flatten Quadratic.arch 4).after 4).call.1.isNone = true := by
  intro segments
  obtain ⟨⟨length, calls⟩, -, samples, -, joined, left⟩ := calls_of_flatten Quadratic.arch 4
  have second : 1 < segments.length := by
    rw [length]
    decide
  have third : 2 < segments.length := by
    rw [length]
    decide
  refine ⟨⟨by decide, by decide, samples 2 (by decide) (by decide), by decide +kernel⟩, ?_, ?_, ?_⟩
  · have found := List.getElem?_eq_getElem second
    have found' := List.getElem?_eq_getElem third
    exact ⟨_, _, found, found', joined 1 _ _ found found'⟩
  · rw [(left 3).2.2, List.length_drop, length]
    rfl
  · rw [calls 4, List.getElem?_eq_none (by rw [length]; decide), Option.isNone_none]

end VectorPaint
