import Mathlib
import VectorPaint.Raster.Stroke

/-!
Lines of cells are straight. The error of a trace is fixed by the number of steps it has made to the
side and down. Once the column or the row of the end is reached, the error keeps the trace from
leaving it, so the cells of a line lie between its ends along both axes. The error also tells how
far the cell has drifted from the line between the two ends, and the signs by which a step is chosen
hold the drift within half a cell. So every step goes on by one cell along the axis on which the
line goes further, and a line arrives at its end after as many steps as this axis asks for, neither
sooner nor later.
-/
namespace VectorPaint.Cell

variable {start stop : Cell} {across down : ℕ}

/-- The cell some steps to the side and some steps down, in the directions of `stop`. -/
def stepped (start stop : Cell) (across down : ℕ) : Cell :=
  ⟨start.x + across * direction start.x stop.x, start.y + down * direction start.y stop.y⟩

namespace Trace

/-- The line under way, after some steps to the side and some steps down. -/
def after (start stop : Cell) (across down : ℕ) : Trace :=
  let first := Trace.begin start stop
  { first with
    cell := stepped start stop across down
    error := first.dx * (1 + down) + first.dy * (1 + across) }

theorem begin_eq_after (start stop : Cell) : Trace.begin start stop = after start stop 0 0 := by
  simp [after, Trace.begin, stepped]

/-- The steps made so far do not lead past the end. -/
structure Underway (start stop : Cell) (across down : ℕ) : Prop where
  across : across ≤ (stop.x - start.x).natAbs
  down : down ≤ (stop.y - start.y).natAbs

/-- What a step does, as told by whether it goes to the side and whether it goes down. -/
private theorem move_after (start stop : Cell) (across down : ℕ) (aside lower : Bool) :
    let t := after start stop across down
    { t with
      cell := ⟨if aside then t.cell.x + t.stepX else t.cell.x,
        if lower then t.cell.y + t.stepY else t.cell.y⟩
      error := t.error + (if aside then t.dy else 0) + (if lower then t.dx else 0) } =
      after start stop (across + aside.toNat) (down + lower.toNat) := by
  have cell : stepped start stop (across + aside.toNat) (down + lower.toNat) =
      ⟨(stepped start stop across down).x + aside.toNat * direction start.x stop.x,
        (stepped start stop across down).y + lower.toNat * direction start.y stop.y⟩ := by
    simp only [stepped, Cell.mk.injEq]
    push_cast
    constructor <;> ring
  simp only [after, Trace.begin, cell]
  cases aside <;> cases lower <;> simp <;> ring

theorem next_after (start stop : Cell) (across down : ℕ) :
    ∃ aside lower : Bool,
      (after start stop across down).next =
        after start stop (across + aside.toNat) (down + lower.toNat) ∧
      (aside = true ↔ -((stop.y - start.y).natAbs : ℤ) ≤ 2 * (after start stop across down).error) ∧
      (lower = true ↔ 2 * (after start stop across down).error ≤ (stop.x - start.x).natAbs) :=
  ⟨_, _, move_after .., decide_eq_true_iff, decide_eq_true_iff⟩

/-- In the last column there are no steps to the side. -/
private theorem error_lt {width height : ℕ} (below : down < height) :
    2 * ((width : ℤ) * (1 + down) + -height * (1 + width)) < -height := by
  have product : (width : ℤ) * (1 + down) ≤ width * height := by
    gcongr
    omega
  linarith

/-- In the last row there are no steps down. -/
private theorem lt_error {width height : ℕ} (beside : across < width) :
    (width : ℤ) < 2 * (width * (1 + height) + -height * (1 + across)) := by
  have product : (height : ℤ) * (1 + across) ≤ height * width := by
    gcongr
    omega
  linarith

theorem exists_next_after (underway : Underway start stop across down)
    (unfinished : stepped start stop across down ≠ stop) :
    ∃ across' down', (after start stop across down).next = after start stop across' down' ∧
      Underway start stop across' down' := by
  obtain ⟨side, below⟩ := underway
  have missing : across < (stop.x - start.x).natAbs ∨ down < (stop.y - start.y).natAbs := by
    by_contra arrived
    have column : start.x + across * direction start.x stop.x = stop.x := by
      simp only [direction]
      split <;> omega
    have row : start.y + down * direction start.y stop.y = stop.y := by
      simp only [direction]
      split <;> omega
    exact unfinished (by simp only [stepped, column, row])
  obtain ⟨aside, lower, next_eq, aside_iff, lower_iff⟩ := next_after start stop across down
  refine ⟨_, _, next_eq, ?_, ?_⟩
  · cases aside with
    | false => exact side
    | true =>
      refine Nat.lt_of_le_of_ne side fun column => ?_
      subst column
      exact absurd (aside_iff.mp rfl) (not_le.mpr (error_lt (missing.resolve_left (lt_irrefl _))))
  · cases lower with
    | false => exact below
    | true =>
      refine Nat.lt_of_le_of_ne below fun row => ?_
      subst row
      exact absurd (lower_iff.mp rfl) (not_le.mpr (lt_error (missing.resolve_right (lt_irrefl _))))

theorem exists_of_mem_cells {limit : ℕ} (underway : Underway start stop across down) {cell : Cell}
    (member : cell ∈ cells limit (after start stop across down)) :
    ∃ across' down', cell = stepped start stop across' down' ∧
      Underway start stop across' down' := by
  induction limit generalizing across down with
  | zero => cases member
  | succ limit ih =>
    rw [cells, List.mem_cons] at member
    rcases member with rfl | later
    · exact ⟨across, down, rfl, underway⟩
    · split at later
      · cases later
      · rename_i unfinished
        obtain ⟨across', down', next_eq, onward⟩ := exists_next_after underway unfinished
        rw [next_eq] at later
        exact ih onward later

end Trace

/-- A line of cells does not leave the box of its ends. -/
theorem between_of_mem_line {cell : Cell} (member : cell ∈ line start stop) :
    (min start.x stop.x ≤ cell.x ∧ cell.x ≤ max start.x stop.x) ∧
      min start.y stop.y ≤ cell.y ∧ cell.y ≤ max start.y stop.y := by
  rw [line, Trace.begin_eq_after] at member
  obtain ⟨across, down, rfl, side, below⟩ := Trace.exists_of_mem_cells ⟨by simp, by simp⟩ member
  simp only [stepped, direction]
  refine ⟨?_, ?_⟩ <;> split <;> omega

theorem natAbs_mul_direction (a b : ℤ) : (b - a).natAbs * direction a b = b - a := by
  unfold direction
  split <;> omega

theorem direction_ne_zero (a b : ℤ) : direction a b ≠ 0 := by
  unfold direction
  split <;> omega

theorem abs_direction (a b : ℤ) : |direction a b| = 1 := by
  unfold direction
  split <;> rfl

theorem direction_eq_sign {a b : ℤ} (apart : a ≠ b) : direction a b = (b - a).sign := by
  unfold direction
  split
  · rw [Int.sign_eq_one_of_pos (by omega)]
  · rw [Int.sign_eq_neg_one_of_neg (by omega)]

/-- The line goes at least as far to the side as up or down. -/
def Flat (start stop : Cell) : Prop := (stop.y - start.y).natAbs ≤ (stop.x - start.x).natAbs

instance (start stop : Cell) : Decidable (Flat start stop) := inferInstanceAs (Decidable (_ ≤ _))

/-- The coordinate of a cell on the axis on which the line goes further. -/
def along (start stop cell : Cell) : ℤ := if Flat start stop then cell.x else cell.y

/-- The coordinate of a cell on the other axis. -/
def aside (start stop cell : Cell) : ℤ := if Flat start stop then cell.y else cell.x

/-- How far a line goes on the axis on which it goes further. -/
def long (start stop : Cell) : ℕ := max (stop.x - start.x).natAbs (stop.y - start.y).natAbs

/-- How far it goes on the other axis. -/
def short (start stop : Cell) : ℕ := min (stop.x - start.x).natAbs (stop.y - start.y).natAbs

theorem long_eq (start stop : Cell) :
    long start stop =
      if Flat start stop then (stop.x - start.x).natAbs else (stop.y - start.y).natAbs := by
  split
  · rename_i flat
    exact max_eq_left flat
  · rename_i steep
    exact max_eq_right (not_le.mp steep).le

theorem short_eq (start stop : Cell) :
    short start stop =
      if Flat start stop then (stop.y - start.y).natAbs else (stop.x - start.x).natAbs := by
  split
  · rename_i flat
    exact min_eq_right flat
  · rename_i steep
    exact min_eq_left (not_le.mp steep).le

theorem natAbs_along (start stop : Cell) :
    (along start stop stop - along start stop start).natAbs = long start stop := by
  by_cases flat : Flat start stop <;> simp only [along, long_eq, flat, if_true, if_false]

theorem natAbs_aside (start stop : Cell) :
    (aside start stop stop - aside start stop start).natAbs = short start stop := by
  by_cases flat : Flat start stop <;> simp only [aside, short_eq, flat, if_true, if_false]

theorem long_mul_direction (start stop : Cell) :
    long start stop * direction (along start stop start) (along start stop stop) =
      along start stop stop - along start stop start := by
  rw [← natAbs_along, natAbs_mul_direction]

theorem short_mul_direction (start stop : Cell) :
    short start stop * direction (aside start stop start) (aside start stop stop) =
      aside start stop stop - aside start stop start := by
  rw [← natAbs_aside, natAbs_mul_direction]

theorem short_le_long (start stop : Cell) : short start stop ≤ long start stop :=
  min_le_max

theorem eq_iff_along_aside (start stop cell other : Cell) :
    cell = other ↔ along start stop cell = along start stop other ∧
      aside start stop cell = aside start stop other := by
  obtain ⟨x, y⟩ := cell
  obtain ⟨x', y'⟩ := other
  by_cases flat : Flat start stop <;> simp [along, aside, flat, and_comm]

namespace Trace

/-- A line that has made some steps on its longer axis, of which `turns` also lead on on the other
one. -/
def reached (start stop : Cell) (steps turns : ℕ) : Trace :=
  if Flat start stop then after start stop steps turns else after start stop turns steps

/-- The cell is within half a cell of the straight line. -/
structure Near (start stop : Cell) (steps turns : ℕ) : Prop where
  within : turns ≤ steps
  drift : |2 * ((turns * long start stop : ℤ) - steps * short start stop)| ≤ long start stop

theorem begin_eq_reached (start stop : Cell) : Trace.begin start stop = reached start stop 0 0 := by
  rw [begin_eq_after, reached, ite_self]

theorem near_begin (start stop : Cell) : Near start stop 0 0 := ⟨le_rfl, by simp⟩

theorem along_reached (start stop : Cell) (steps turns : ℕ) :
    along start stop (reached start stop steps turns).cell = along start stop start +
      steps * direction (along start stop start) (along start stop stop) := by
  by_cases flat : Flat start stop <;> simp [along, reached, flat, after, stepped]

theorem aside_reached (start stop : Cell) (steps turns : ℕ) :
    aside start stop (reached start stop steps turns).cell = aside start stop start +
      turns * direction (aside start stop start) (aside start stop stop) := by
  by_cases flat : Flat start stop <;> simp [aside, reached, flat, after, stepped]

/-- The longer axis is never left out of a step, and the other one is taken if that brings the cell
nearer to the line. -/
private theorem drift_step {long short p q error : ℤ} (forth : 0 ≤ short) (longer : short ≤ long)
    (error_eq : error = long + p - (short + q)) (near : |2 * (p - q)| ≤ long) :
    -short ≤ 2 * error ∧ (2 * error ≤ long → |2 * (p + long - (q + short))| ≤ long) ∧
      (¬ 2 * error ≤ long → |2 * (p - (q + short))| ≤ long) := by
  simp only [abs_le] at near ⊢
  omega

theorem error_after (start stop : Cell) (across down : ℕ) :
    (after start stop across down).error =
      (stop.x - start.x).natAbs + down * (stop.x - start.x).natAbs -
        ((stop.y - start.y).natAbs + across * (stop.y - start.y).natAbs) := by
  simp only [after, Trace.begin]
  ring

/-- What a step does, on the axis on which the line goes further and on the other one. -/
theorem next_reached_eq (start stop : Cell) (steps turns : ℕ) :
    ∃ onward turn : Bool, ∃ error : ℤ, (reached start stop steps turns).next =
        reached start stop (steps + onward.toNat) (turns + turn.toNat) ∧
      error = long start stop + turns * long start stop -
        (short start stop + steps * short start stop) ∧
      (onward = true ↔ -(short start stop : ℤ) ≤ 2 * error) ∧
      (turn = true ↔ 2 * error ≤ long start stop) := by
  by_cases flat : Flat start stop
  · obtain ⟨side, lower, next_eq, side_iff, lower_iff⟩ := next_after start stop steps turns
    simp only [reached, long_eq, short_eq, flat, if_true]
    exact ⟨side, lower, _, next_eq, error_after start stop steps turns, side_iff, lower_iff⟩
  · obtain ⟨side, lower, next_eq, side_iff, lower_iff⟩ := next_after start stop turns steps
    simp only [reached, long_eq, short_eq, flat, if_false]
    -- With the axes exchanged the error counts the other way.
    refine ⟨lower, side, -(after start stop turns steps).error, next_eq, ?_, ?_, ?_⟩
    · rw [error_after]
      ring
    · rw [lower_iff]
      omega
    · rw [side_iff]
      omega

theorem next_reached {steps turns : ℕ} (near : Near start stop steps turns) :
    ∃ turn : Bool, (reached start stop steps turns).next =
        reached start stop (steps + 1) (turns + turn.toNat) ∧
      Near start stop (steps + 1) (turns + turn.toNat) := by
  obtain ⟨onward, turn, error, next_eq, error_eq, onward_iff, turn_iff⟩ :=
    next_reached_eq start stop steps turns
  obtain ⟨forth, taken, left⟩ := drift_step (Int.natCast_nonneg _)
    (Int.ofNat_le.mpr (short_le_long start stop)) error_eq near.drift
  obtain rfl : onward = true := onward_iff.mpr forth
  refine ⟨turn, next_eq, ?_, ?_⟩
  · have once : turn.toNat ≤ 1 := Bool.toNat_le turn
    have within := near.within
    omega
  · cases turn with
    | true =>
      simpa only [Bool.toNat_true, Nat.cast_add, Nat.cast_one, add_one_mul] using
        taken (turn_iff.mp rfl)
    | false =>
      simpa only [Bool.toNat_false, add_zero, Nat.cast_add, Nat.cast_one, add_one_mul] using
        left fun small => Bool.false_ne_true (turn_iff.mpr small)

/-- However many steps a line makes, it stays near. -/
theorem exists_iterate (start stop : Cell) (steps : ℕ) :
    ∃ turns, next^[steps] (Trace.begin start stop) = reached start stop steps turns ∧
      Near start stop steps turns := by
  induction steps with
  | zero => exact ⟨0, begin_eq_reached start stop, near_begin start stop⟩
  | succ steps ih =>
    obtain ⟨turns, run, near⟩ := ih
    obtain ⟨turn, next_eq, onward⟩ := next_reached near
    exact ⟨_, by rw [Function.iterate_succ_apply', run, next_eq], onward⟩

theorem abs_error_iterate (start stop : Cell) (steps : ℕ) :
    |2 * (next^[steps] (Trace.begin start stop)).error| ≤ 3 * long start stop := by
  obtain ⟨turns, run, near⟩ := exists_iterate start stop steps
  have longer : (short start stop : ℤ) ≤ long start stop :=
    Int.ofNat_le.mpr (short_le_long start stop)
  have drift := near.drift
  rw [run]
  rw [abs_le] at drift ⊢
  by_cases flat : Flat start stop
  · simp only [reached, long_eq, short_eq, flat, if_true, error_after] at longer drift ⊢
    constructor <;> linarith
  · simp only [reached, long_eq, short_eq, flat, if_false, error_after] at longer drift ⊢
    constructor <;> linarith

/-- After as many steps as the longer axis asks for, the other one is made up too. -/
theorem Near.turns_eq {turns : ℕ} (near : Near start stop (long start stop) turns) :
    turns = short start stop := by
  by_contra apart
  have gap : 1 ≤ |(turns - short start stop : ℤ)| :=
    Int.one_le_abs (sub_ne_zero.mpr (Int.ofNat_inj.not.mpr apart))
  have drift := near.drift
  rw [show (2 * ((turns * long start stop : ℤ) - long start stop * short start stop)) =
    2 * long start stop * (turns - short start stop) by ring, abs_mul,
    abs_of_nonneg (by positivity)] at drift
  have none : (long start stop : ℤ) ≤ 0 := by nlinarith
  have within := near.within
  have shorter := short_le_long start stop
  omega

/-- On a line that only goes along one axis there are no turns. -/
theorem Near.short_pos {steps turns : ℕ} (near : Near start stop steps turns) (turned : 0 < turns)
    (further : 0 < long start stop) : 0 < short start stop := by
  refine Nat.pos_of_ne_zero fun level => ?_
  have drift := near.drift
  rw [level, Nat.cast_zero, mul_zero, sub_zero, abs_of_nonneg (by positivity)] at drift
  have once : (1 : ℤ) * long start stop ≤ turns * long start stop := by gcongr; omega
  omega

theorem reached_eq_stop_iff {steps turns : ℕ} (near : Near start stop steps turns) :
    (reached start stop steps turns).cell = stop ↔ steps = long start stop := by
  rw [eq_iff_along_aside start stop, along_reached, aside_reached]
  constructor
  · rintro ⟨arrived, -⟩
    have same : (steps : ℤ) * direction (along start stop start) (along start stop stop) =
        long start stop * direction (along start stop start) (along start stop stop) := by
      rw [long_mul_direction]
      omega
    exact Int.ofNat_inj.mp (mul_right_cancel₀ (direction_ne_zero _ _) same)
  · rintro rfl
    rw [near.turns_eq, long_mul_direction, short_mul_direction]
    omega

/-- The loop ends with the step at which the longer axis is made up. -/
theorem isLeast_long (start stop : Cell) :
    IsLeast {steps | (next^[steps] (Trace.begin start stop)).cell = stop} (long start stop) := by
  have arrived (steps : ℕ) :
      (next^[steps] (Trace.begin start stop)).cell = stop ↔ steps = long start stop := by
    obtain ⟨turns, run, near⟩ := exists_iterate start stop steps
    rw [run, reached_eq_stop_iff near]
  exact ⟨(arrived _).mpr rfl, fun steps member => ((arrived steps).mp member).ge⟩

theorem cells_eq_map {steps limit : ℕ} {t : Trace}
    (least : IsLeast {k | (next^[k] t).cell = t.stop} steps) (room : steps < limit) :
    cells limit t = (List.range (steps + 1)).map fun k => (next^[k] t).cell := by
  induction limit generalizing steps t with
  | zero => omega
  | succ limit ih =>
    rw [cells, List.range_succ_eq_map, List.map_cons, List.map_map]
    cases steps with
    | zero =>
      rw [if_pos (show t.cell = t.stop from least.1)]
      rfl
    | succ steps =>
      have early : t.cell ≠ t.stop := fun arrived => Nat.not_succ_le_zero steps (least.2 arrived)
      have later : IsLeast {k | (next^[k] t.next).cell = t.next.stop} steps :=
        ⟨least.1, fun k arrived =>
          Nat.succ_le_succ_iff.mp (least.2 (show k + 1 ∈ _ from arrived))⟩
      rw [if_neg early, ih later (Nat.succ_lt_succ_iff.mp room)]
      rfl

/-- The cells of a line are those its steps come through, whatever bounds their number. -/
theorem cells_begin {limit : ℕ} (room : long start stop < limit) :
    cells limit (Trace.begin start stop) =
      (List.range (long start stop + 1)).map fun k =>
        (next^[k] (Trace.begin start stop)).cell :=
  cells_eq_map (isLeast_long start stop) room

end Trace

theorem line_eq_map (start stop : Cell) :
    line start stop = (List.range (long start stop + 1)).map fun k =>
      (Trace.next^[k] (Trace.begin start stop)).cell := by
  refine Trace.cells_begin ?_
  unfold long
  omega

/-- A line along a row comes through all columns between its ends. -/
theorem mem_line_of_level (level : start.y = stop.y) {x : ℤ} (low : min start.x stop.x ≤ x)
    (high : x ≤ max start.x stop.x) : ⟨x, start.y⟩ ∈ line start stop := by
  have flat : Flat start stop := by
    rw [Flat, level, sub_self]
    exact Nat.zero_le _
  have early : (x - start.x).natAbs < long start stop + 1 := by
    rw [long_eq, if_pos flat]
    omega
  have member : (Trace.next^[(x - start.x).natAbs] (Trace.begin start stop)).cell ∈
      line start stop := by
    rw [line_eq_map]
    exact List.mem_map_of_mem (List.mem_range.mpr early)
  have row := (between_of_mem_line member).2
  rw [level, min_self, max_self] at row
  obtain ⟨turns, run, -⟩ := Trace.exists_iterate start stop (x - start.x).natAbs
  have column := Trace.along_reached start stop (x - start.x).natAbs turns
  rw [← run] at column
  simp only [along, if_pos flat] at column
  have same : (Trace.next^[(x - start.x).natAbs] (Trace.begin start stop)).cell =
      ⟨x, start.y⟩ := by
    rw [Cell.mk.injEq, column, level]
    refine ⟨?_, le_antisymm row.2 row.1⟩
    unfold direction
    split <;> omega
  rwa [same] at member

/-- The cell `d` comes right after `c` on the way to `stop`: one further on the longer axis, and at
most one on the other. -/
structure Onward (start stop c d : Cell) : Prop where
  along : along start stop d = along start stop c +
    (along start stop stop - along start stop start).sign
  aside : aside start stop d = aside start stop c ∨ aside start stop d = aside start stop c +
    (aside start stop stop - aside start stop start).sign

/-- Where the straight line between two cells is on its shorter axis, at a place on the longer
one. -/
def abreast (start stop : Cell) (place : ℤ) : ℚ :=
  aside start stop start + (place - along start stop start) *
    (aside start stop stop - aside start stop start) /
      (along start stop stop - along start stop start)

namespace Trace

theorem onward_of_reached {steps turns : ℕ} {turn : Bool} (further : steps < long start stop)
    (near : Near start stop (steps + 1) (turns + turn.toNat)) :
    Onward start stop (reached start stop steps turns).cell
      (reached start stop (steps + 1) (turns + turn.toNat)).cell := by
  constructor
  · have apart : along start stop start ≠ along start stop stop := by
      have way := natAbs_along start stop
      omega
    rw [along_reached, along_reached, direction_eq_sign apart]
    push_cast
    ring
  · rw [aside_reached, aside_reached]
    cases turn with
    | false => exact .inl (by simp)
    | true =>
      have apart : aside start stop start ≠ aside start stop stop := by
        have way := natAbs_aside start stop
        have turned := near.short_pos (Nat.succ_pos _) (Nat.zero_lt_of_lt further)
        omega
      rw [direction_eq_sign apart]
      right
      push_cast [Bool.toNat_true]
      ring

/-- The offset from the line is the drift, to either side. -/
private theorem offset_eq {a b steps turns long short onward turn : ℚ} (length : long ≠ 0)
    (moving : onward ≠ 0) :
    b + turns * turn - (b + (a + steps * onward - a) * (short * turn) / (long * onward)) =
      2 * (turns * long - steps * short) / long / 2 * turn := by
  field_simp
  ring

theorem abs_sub_abreast {steps turns : ℕ} (early : steps ≤ long start stop)
    (near : Near start stop steps turns) :
    |(aside start stop (reached start stop steps turns).cell : ℚ) -
      abreast start stop (along start stop (reached start stop steps turns).cell)| ≤ 1 / 2 := by
  have forth : (along start stop stop : ℚ) - along start stop start = long start stop *
      direction (along start stop start) (along start stop stop) := by
    exact_mod_cast (long_mul_direction start stop).symm
  have beside : (aside start stop stop : ℚ) - aside start stop start = short start stop *
      direction (aside start stop start) (aside start stop stop) := by
    exact_mod_cast (short_mul_direction start stop).symm
  rw [abreast, along_reached, aside_reached, forth, beside]
  rcases Nat.eq_zero_or_pos (long start stop) with point | further
  · obtain rfl : steps = 0 := by omega
    obtain rfl : turns = 0 := Nat.le_zero.mp near.within
    simp
  · have onward : (direction (along start stop start) (along start stop stop) : ℚ) ≠ 0 :=
      Int.cast_ne_zero.mpr (direction_ne_zero _ _)
    have turn : |(direction (aside start stop start) (aside start stop stop) : ℚ)| = 1 := by
      exact_mod_cast abs_direction _ _
    have length : (0 : ℚ) < long start stop := Nat.cast_pos.mpr further
    have drift : |2 * ((turns * long start stop : ℚ) - steps * short start stop)| ≤
        long start stop := by
      exact_mod_cast near.drift
    push_cast
    rw [offset_eq length.ne' onward, abs_mul, turn, mul_one, abs_div, abs_div, abs_of_pos length,
      abs_two]
    have ratio := (div_le_one length).mpr drift
    linarith

end Trace

/-- A line of cells goes straight from one end to the other. Twice the error of a step is at most
three times the length of the line, so that the integers of any machine that hold three times the
coordinates hold the whole of the computation. -/
theorem line_straight (start stop : Cell) :
    IsLeast {k | (Trace.next^[k] (Trace.begin start stop)).cell = stop} (long start stop) ∧
      (∀ limit, long start stop < limit →
        Trace.cells limit (Trace.begin start stop) = line start stop) ∧
      (line start stop).length = long start stop + 1 ∧
      (line start stop).head? = some start ∧ (line start stop).getLast? = some stop ∧
      (line start stop).IsChain (Onward start stop) ∧
      (∀ cell ∈ line start stop,
        |(aside start stop cell : ℚ) - abreast start stop (along start stop cell)| ≤ 1 / 2 ∧
          cell.x ∈ Set.uIcc start.x stop.x ∧ cell.y ∈ Set.uIcc start.y stop.y) ∧
      ∀ steps, |2 * (Trace.next^[steps] (Trace.begin start stop)).error| ≤ 3 * long start stop := by
  have listed := line_eq_map start stop
  refine ⟨Trace.isLeast_long start stop, fun limit room => ?_, ?_, ?_, ?_, ?_, ?_,
    Trace.abs_error_iterate start stop⟩
  · rw [Trace.cells_begin room, listed]
  · rw [listed, List.length_map, List.length_range]
  · rw [listed, List.range_succ_eq_map]
    rfl
  · rw [listed, List.range_succ, List.map_append, List.map_singleton, List.getLast?_concat]
    exact congrArg some (Trace.isLeast_long start stop).1
  · rw [listed, List.isChain_map, List.isChain_range_succ]
    intro steps further
    obtain ⟨turns, run, near⟩ := Trace.exists_iterate start stop steps
    obtain ⟨turn, next_eq, onward⟩ := Trace.next_reached near
    rw [Function.iterate_succ_apply', run, next_eq]
    exact Trace.onward_of_reached further onward
  · intro cell member
    refine ⟨?_, between_of_mem_line member⟩
    rw [listed, List.mem_map] at member
    obtain ⟨steps, early, rfl⟩ := member
    obtain ⟨turns, run, near⟩ := Trace.exists_iterate start stop steps
    rw [run]
    exact Trace.abs_sub_abreast (Nat.lt_succ_iff.mp (List.mem_range.mp early)) near

/-- Where two cells are equally near, the line turns. -/
example : line ⟨0, 0⟩ ⟨4, -2⟩ = [⟨0, 0⟩, ⟨1, -1⟩, ⟨2, -1⟩, ⟨3, -2⟩, ⟨4, -2⟩] := by decide

end VectorPaint.Cell
