import VectorPaint.Plane.Basic
import VectorPaint.Proofs.Scalar.Hypot

/-!
Segments along a row of pixels, in binary floating point. However far such a segment reaches, no
foot on it and no clipped end leaves the row, so the centers of other rows are half a unit away from
it. An end that is cut off at a side is moved by three roundings, each of at most half a unit while
the segment is not longer than the whole numbers that a mantissa holds. So a segment that crosses a
box still comes to its first column and to its last one after it was cut.
-/
namespace VectorPaint

open Binary64

namespace Segment

/-- The segment is finite and runs along the centers of a row. -/
structure Level (s : Segment Float) (row : ℕ) (a b : ℝ) : Prop where
  startX : Denotes s.start.x a
  stopX : Denotes s.stop.x b
  startY : Denotes s.start.y (row + 1 / 2)
  stopY : Denotes s.stop.y (row + 1 / 2)

variable {s : Segment Float} {row y : ℕ} {a b : ℝ}

section Centers

/-- The centers of the rows above lie no lower than the upper side of the row. -/
theorem number_center_le (small : row < 2 ^ 52) (above : y < row) :
    Determinate (Scalar.ofNat y + Scalar.half) ∧
      number (Scalar.ofNat y + Scalar.half) ≤ (row : ℝ) := by
  have denotes : Denotes (Scalar.ofNat y) y := denotes_ofNat (by omega)
  have next : (y : ℝ) + 1 ≤ row := by exact_mod_cast above
  refine ⟨denotes.determinate.add denotes_half, ?_⟩
  calc number (Scalar.ofNat y + Scalar.half) ≤ stored (y + 1 / 2) :=
        denotes_half.number_add_le denotes.determinate denotes.number_eq.le
    _ ≤ stored row := stored_mono (by linarith)
    _ = (row : ℝ) := stored_natCast (by omega)

/-- The centers of the rows below lie no higher than the lower side of the row. -/
theorem le_number_center (small : row < 2 ^ 52) (below : row < y) :
    Determinate (Scalar.ofNat y + Scalar.half) ∧
      ((row + 1 : ℕ) : ℝ) ≤ number (Scalar.ofNat y + Scalar.half) := by
  have stores := stores_ofNat y
  have whole : stored (row + 1 : ℕ) = ((row + 1 : ℕ) : ℝ) := stored_natCast (by omega)
  have reached : (((row + 1 : ℕ) : ℝ) : EReal) ≤ number (Scalar.ofNat y) := by
    rw [stores.number_eq, ← whole]
    exact stored_mono (Nat.cast_le.mpr below)
  refine ⟨stores.determinate.add denotes_half, ?_⟩
  calc (((row + 1 : ℕ) : ℝ) : EReal) = stored (row + 1 : ℕ) := whole.symm
    _ ≤ stored ((row + 1 : ℕ) + 1 / 2) := stored_mono (by linarith)
    _ ≤ number (Scalar.ofNat y + Scalar.half) :=
        denotes_half.le_number_add stores.determinate reached

/-- The center of a pixel in another row is half a unit above or below the row. -/
theorem half_le_abs_of_center {foot : Float} {v : ℝ} (off : y ≠ row)
    (level : Determinate foot → Denotes foot (row + 1 / 2))
    (denotes : Denotes (Scalar.ofNat y + Scalar.half - foot) v) : 1 / 2 ≤ |v| := by
  have foot := level denotes.determinate.of_sub.2
  have small := foot.lt_of_half
  rcases lt_or_gt_of_ne off with above | below
  · obtain ⟨determinate, le⟩ := number_center_le small above
    have bound := foot.number_sub_le determinate le
    rw [denotes.number_eq, show (row : ℝ) - (row + 1 / 2) = -(1 / 2) by ring,
      denotes_half.neg.stored_eq, EReal.coe_le_coe_iff] at bound
    exact le_abs.mpr (.inr (by linarith))
  · obtain ⟨determinate, le⟩ := le_number_center small below
    have bound := foot.le_number_sub determinate le
    rw [denotes.number_eq, show ((row + 1 : ℕ) : ℝ) - (row + 1 / 2) = 1 / 2 by push_cast; ring,
      denotes_half.stored_eq, EReal.coe_le_coe_iff] at bound
    exact le_abs.mpr (.inl bound)

end Centers

section Feet

theorem Level.direction_y (level : s.Level row a b) : Denotes s.direction.y 0 := by
  have difference := level.stopY.sub level.startY
  rw [sub_self] at difference
  exact difference.exact denotes_zero

/-- A part of no height leads to no other row. -/
theorem Level.foot_y (level : s.Level row a b) {part : Float} (none : Denotes part 0) :
    Denotes (s.start.y + part) (row + 1 / 2) := by
  have sum := level.startY.add none
  rw [add_zero] at sum
  exact sum.exact level.startY

/-- Pixels of other rows are not closer than half a unit, unless their distance is
indeterminate. -/
theorem Level.half_le_distance (level : s.Level row a b) (off : y ≠ row) (x : Float)
    (determinate : Determinate (s.distance ⟨x, Scalar.ofNat y + Scalar.half⟩)) :
    ((1 / 2 : ℝ) : EReal) ≤ number (s.distance ⟨x, Scalar.ofNat y + Scalar.half⟩) := by
  unfold distance at determinate ⊢
  simp only at determinate ⊢
  split at determinate
  · rename_i point
    rw [if_pos point]
    exact half_le_hypot (fun q => half_le_abs_of_center off fun _ => level.startY) determinate
  · rename_i long
    rw [if_neg long]
    refine half_le_hypot (fun q => half_le_abs_of_center off fun foot => ?_) determinate
    exact level.foot_y (level.direction_y.mul_zero foot.of_add.2)

/-- No stroke of at most one unit is wide enough to come near pixels of other rows. -/
theorem Level.not_near (level : s.Level row a b) (off : y ≠ row) (x : Float) {distance : Float}
    {d : ℝ} (width : Denotes distance d) (thin : d ≤ 1 / 2) :
    ¬ s.distance ⟨x, Scalar.ofNat y + Scalar.half⟩ < distance := by
  intro near
  by_cases determinate : Determinate (s.distance ⟨x, Scalar.ofNat y + Scalar.half⟩)
  · rw [lt_iff_number determinate width.determinate, width.number_eq] at near
    have far := level.half_le_distance off x determinate
    exact absurd (far.trans_lt near) (not_lt.mpr (EReal.coe_le_coe_iff.mpr thin))
  · exact not_lt_of_indeterminate determinate near

end Feet

section Cuts

variable {range range' : Float × Float} {speed room : Float} {t u d r m : ℝ}

/-- The parameters in the range are finite. -/
def Held (range : Float × Float) : Prop := (∃ t, Denotes range.1 t) ∧ ∃ u, Denotes range.2 u

/-- A cut keeps the ends of a range finite, wherever it is made. -/
theorem Held.cutRange (held : Held range) (cut : cutRange range speed room = some range') :
    Held range' := by
  obtain ⟨⟨t, first⟩, u, second⟩ := held
  unfold Segment.cutRange at cut
  split at cut
  · split at cut
    · cases cut
    · cases cut
      exact ⟨⟨t, first⟩, u, second⟩
  · simp only at cut
    split at cut
    · split at cut
      · cases cut
      · rename_i early
        cases cut
        exact ⟨exists_denotes_greatest first second early, u, second⟩
    · split at cut
      · cases cut
      · rename_i late
        cases cut
        exact ⟨⟨t, first⟩, exists_denotes_least first second late⟩

/-- The range of a whole segment. -/
theorem denotes_whole :
    Denotes ((Scalar.ofNat 0, Scalar.ofNat 1) : Float × Float).1 0 ∧
      Denotes ((Scalar.ofNat 0, Scalar.ofNat 1) : Float × Float).2 1 :=
  ⟨denotes_zero, denotes_one⟩

theorem held_whole : Held (Scalar.ofNat 0, Scalar.ofNat 1) :=
  ⟨⟨_, denotes_whole.1⟩, _, denotes_whole.2⟩

/-- A clipped segment stays on its row. -/
theorem Level.clip_y (level : s.Level row a b) {box : Box Float} {inner : Segment Float}
    (clipped : s.clip box = some inner) :
    Denotes inner.start.y (row + 1 / 2) ∧ Denotes inner.stop.y (row + 1 / 2) := by
  unfold clip at clipped
  simp only [bind, Option.bind_eq_some_iff, pure, Option.some.injEq] at clipped
  obtain ⟨left, cutLeft, right, cutRight, upper, cutUpper, lower, cutLower, rfl⟩ := clipped
  obtain ⟨⟨t, first⟩, u, second⟩ :=
    (((held_whole.cutRange cutLeft).cutRange cutRight).cutRange cutUpper).cutRange cutLower
  have none {part : Float} {t : ℝ} (denotes : Denotes part t) :
      Denotes (part * s.direction.y) 0 :=
    level.direction_y.mul_zero (denotes.mul level.direction_y).determinate
  exact ⟨level.foot_y (none first), level.foot_y (none second)⟩

/-- A side along the segment keeps all of it. -/
theorem cutRange_along (still : Denotes speed 0) (determinate : Determinate room)
    (inside : 0 ≤ number room) : cutRange range speed room = some range := by
  have slow : Scalar.abs speed < Scalar.epsilon := by
    refine (still.abs.lt_iff denotes_epsilon).mpr ?_
    rw [abs_zero]
    positivity
  have kept : ¬ room < Scalar.ofNat 0 := by
    refine mt (lt_iff_number determinate denotes_zero.determinate).mp ?_
    rw [denotes_zero.number_eq]
    exact not_lt.mpr inside
  rw [Segment.cutRange, if_pos slow, if_neg kept]

theorem not_slow (moves : Denotes speed d) (fast : 1 ≤ |d|) :
    ¬ Scalar.abs speed < Scalar.epsilon := by
  refine mt (moves.abs.lt_iff denotes_epsilon).mp (not_lt.mpr ?_)
  exact le_trans (by norm_num) fast

private theorem abs_div_lt (fast : 1 ≤ |d|) (size : |r| < 2 ^ 64) : |r / d| < 2 ^ 64 := by
  rw [abs_div]
  exact (div_le_self (abs_nonneg r) fast).trans_lt size

/-- A side that the segment meets moves one of the parameters up or down to where it is met. -/
theorem cutRange_moving (range : Float × Float) (moves : Denotes speed d) (fast : 1 ≤ |d|)
    (space : Denotes room r) (size : |r| < 2 ^ 64) (ratio : r / d = m) :
    ∃ place, Denotes place (rounded m) ∧ cutRange range speed room =
      if d < 0 then
        if range.2 < place then none else some (Scalar.greatest range.1 place, range.2)
      else if place < range.1 then none else some (range.1, Scalar.least range.2 place) := by
  have moved : d ≠ 0 := abs_pos.mp (one_pos.trans_le fast)
  have backward : speed < Scalar.ofNat 0 ↔ d < 0 := moves.lt_iff denotes_zero
  refine ⟨room / speed, ratio ▸ (space.div moves moved).denotes_of_lt (abs_div_lt fast size), ?_⟩
  rw [Segment.cutRange, if_neg (not_slow moves fast)]
  simp only [backward]

/-- A side that the segment comes in over. -/
theorem cutRange_enter (first : Denotes range.1 t) (second : Denotes range.2 u)
    (moves : Denotes speed d) (backward : d ≤ -1) (space : Denotes room r) (size : |r| < 2 ^ 64)
    (ratio : r / d = m) (early : rounded m ≤ u) :
    ∃ range', cutRange range speed room = some range' ∧
      Denotes range'.1 (max t (rounded m)) ∧ Denotes range'.2 u := by
  obtain ⟨place, denotes, cut⟩ :=
    cutRange_moving range moves (le_abs.mpr (.inr (by linarith))) space size ratio
  have kept : ¬ range.2 < place := mt (second.lt_iff denotes).mp (not_lt.mpr early)
  rw [cut, if_pos (by linarith), if_neg kept]
  exact ⟨_, rfl, first.greatest denotes, second⟩

/-- A side that the segment goes out over. -/
theorem cutRange_leave (first : Denotes range.1 t) (second : Denotes range.2 u)
    (moves : Denotes speed d) (forward : 1 ≤ d) (space : Denotes room r) (size : |r| < 2 ^ 64)
    (ratio : r / d = m) (late : t ≤ rounded m) :
    ∃ range', cutRange range speed room = some range' ∧
      Denotes range'.1 t ∧ Denotes range'.2 (min u (rounded m)) := by
  obtain ⟨place, denotes, cut⟩ :=
    cutRange_moving range moves (le_abs.mpr (.inl forward)) space size ratio
  have kept : ¬ place < range.1 := mt (denotes.lt_iff first).mp (not_lt.mpr late)
  rw [cut, if_neg (by linarith), if_neg kept]
  exact ⟨_, rfl, first, second.least denotes⟩

end Cuts

section Places

variable {d side t : ℝ}

/-- Where a parameter leads, but for the last rounding. -/
noncomputable def place (a d t : ℝ) : ℝ := a + rounded (t * d)

/-- The parameter at which a side is met, as it is computed, but for the last rounding. -/
noncomputable def meeting (a d side : ℝ) : ℝ := rounded (side - a) / d

/-- The computed parameter leads to the side but for three roundings: that of the way to the side,
that of its ratio to the whole way, and that of the way that is gone. -/
theorem abs_place_sub_le (moves : d ≠ 0) (wide : |d| ≤ 2 ^ 52) (reach : |side - a| < 2 ^ 53)
    (within : |meeting a d side| ≤ 1) :
    |place a d (rounded (meeting a d side)) - side| ≤ 3 / 2 := by
  have way : |rounded (side - a) - (side - a)| ≤ 1 / 2 :=
    (abs_rounded_sub_le reach).trans_eq (by norm_num)
  have ratio : |rounded (meeting a d side) * d - rounded (side - a)| ≤ 1 / 2 := by
    have near := abs_rounded_sub_le (k := 1) (within.trans_lt (by norm_num))
    have whole : meeting a d side * d = rounded (side - a) := div_mul_cancel₀ _ moves
    calc |rounded (meeting a d side) * d - rounded (side - a)|
        = |rounded (meeting a d side) - meeting a d side| * |d| := by
          rw [← abs_mul, sub_mul, whole]
      _ ≤ 2 ^ 1 / 2 ^ 54 * 2 ^ 52 := by gcongr
      _ = 1 / 2 := by norm_num
  have gone : |rounded (rounded (meeting a d side) * d) - rounded (meeting a d side) * d| ≤
      1 / 2 := by
    obtain ⟨low, high⟩ := abs_le.mp within
    have part : |rounded (meeting a d side)| ≤ 1 :=
      abs_le.mpr ⟨denotes_one.neg.le_rounded low, denotes_one.rounded_le high⟩
    have size : |rounded (meeting a d side) * d| < 2 ^ 53 := by
      rw [abs_mul]
      have product := mul_le_mul part wide (abs_nonneg d) zero_le_one
      linarith
    exact (abs_rounded_sub_le size).trans_eq (by norm_num)
  unfold place
  rw [abs_le] at way ratio gone ⊢
  constructor <;> linarith

theorem place_zero (a d : ℝ) : place a d 0 = a := by
  rw [place, zero_mul, rounded_zero, add_zero]

/-- The end that is cut off where the segment comes in is the start or close to the side. -/
theorem place_enter (moves : d ≠ 0) (wide : |d| ≤ 2 ^ 52) (reach : |side - a| < 2 ^ 53)
    (early : meeting a d side ≤ 1) :
    place a d (max 0 (rounded (meeting a d side))) = a ∨
      |place a d (max 0 (rounded (meeting a d side))) - side| ≤ 3 / 2 := by
  rcases le_total (meeting a d side) 0 with before | after
  · have none : rounded (meeting a d side) ≤ 0 := rounded_zero ▸ rounded_mono before
    exact .inl (by rw [max_eq_left none, place_zero])
  · rw [max_eq_right (rounded_nonneg after)]
    exact .inr (abs_place_sub_le moves wide reach (abs_le.mpr ⟨by linarith, early⟩))

/-- The end that is cut off where the segment goes out is close to its stop or to the side. -/
theorem place_leave (moves : d ≠ 0) (wide : |d| ≤ 2 ^ 52) (reach : |side - a| < 2 ^ 53)
    (late : 0 ≤ meeting a d side) :
    place a d (min 1 (rounded (meeting a d side))) = a + rounded d ∨
      |place a d (min 1 (rounded (meeting a d side))) - side| ≤ 3 / 2 := by
  rcases le_total (meeting a d side) 1 with before | after
  · rw [min_eq_right (denotes_one.rounded_le before)]
    exact .inr (abs_place_sub_le moves wide reach (abs_le.mpr ⟨by linarith, before⟩))
  · exact .inl (by rw [min_eq_left (denotes_one.le_rounded after), place, one_mul])

/-- A way comes in over one side before it goes out over another one. -/
structure Traverses (a d enter leave : ℝ) : Prop where
  early : meeting a d enter ≤ 1
  late : 0 ≤ meeting a d leave
  ordered : meeting a d enter ≤ meeting a d leave

theorem traverses_forward {enter leave : ℝ} (onward : 1 ≤ rounded (b - a)) (early : enter ≤ b)
    (late : a ≤ leave) (ordered : enter ≤ leave) : Traverses a (rounded (b - a)) enter leave where
  early := (div_le_one (by linarith)).mpr (rounded_mono (by linarith))
  late := div_nonneg (rounded_nonneg (by linarith)) (by linarith)
  ordered := div_le_div_of_nonneg_right (rounded_mono (by linarith)) (by linarith)

/-- Looked at from the other side, parameters are the same. -/
theorem meeting_neg (a d side : ℝ) : meeting (-a) (-d) (-side) = meeting a d side := by
  rw [meeting, ← neg_sub', rounded_neg, neg_div_neg_eq, meeting]

theorem traverses_backward {enter leave : ℝ} (onward : rounded (b - a) ≤ -1) (early : b ≤ enter)
    (late : leave ≤ a) (ordered : leave ≤ enter) : Traverses a (rounded (b - a)) enter leave := by
  have turned : rounded (-b - -a) = -rounded (b - a) := by rw [← neg_sub', rounded_neg]
  have onward' : 1 ≤ rounded (-b - -a) := (le_neg_of_le_neg onward).trans_eq turned.symm
  obtain ⟨early', late', ordered'⟩ :=
    traverses_forward onward' (neg_le_neg early) (neg_le_neg late) (neg_le_neg ordered)
  rw [turned] at early' late' ordered'
  simp only [meeting_neg] at early' late' ordered'
  exact ⟨early', late', ordered'⟩

end Places

section Across

/-- The box reaches one unit beyond all columns, and below the row. -/
structure Around (core : Box Float) (width row : ℕ) : Prop where
  left : Denotes core.low.x (-1)
  right : Denotes core.high.x (width + 1)
  upper : Denotes core.low.y (-1)
  lower : Determinate core.high.y
  below : ((row + 1 : ℕ) : ℝ) ≤ number core.high.y

variable {core : Box Float} {width : ℕ} {range range' : Float × Float}

private theorem stored_nonneg {x : ℝ} (nonneg : 0 ≤ x) : 0 ≤ stored x := by
  rw [← EReal.coe_zero, ← denotes_zero.stored_eq]
  exact stored_mono nonneg

/-- Only the two cuts at the sides of the columns matter. -/
theorem Level.clip_eq (level : s.Level row a b) (around : Around core width row)
    (left : cutRange (Scalar.ofNat 0, Scalar.ofNat 1) (-s.direction.x)
      (s.start.x - core.low.x) = some range)
    (right : cutRange range s.direction.x (core.high.x - s.start.x) = some range') :
    s.clip core = some ⟨s.start + Point.scale range'.1 s.direction,
      s.start + Point.scale range'.2 s.direction⟩ := by
  have still := level.direction_y
  have above := level.startY.sub around.upper
  have upper : cutRange range' (-s.direction.y) (s.start.y - core.low.y) = some range' := by
    refine cutRange_along (neg_zero (G := ℝ) ▸ still.neg) above.determinate ?_
    rw [above.number_eq, sub_neg_eq_add]
    exact stored_nonneg (by positivity)
  have lower : cutRange range' s.direction.y (core.high.y - s.start.y) = some range' := by
    refine cutRange_along still (around.lower.sub level.startY) ?_
    refine le_trans (stored_nonneg ?_) (level.startY.le_number_sub around.lower around.below)
    push_cast
    linarith
  rw [clip]
  simp only [left, right, upper, lower, bind, pure, Option.bind_some]

theorem Level.place_x (level : s.Level row a b) {d t : ℝ} {part : Float}
    (moves : Denotes s.direction.x d) (near : |a| ≤ 2 ^ 52) (wide : |d| ≤ 2 ^ 52)
    (parameter : Denotes part t) (within : |t| ≤ 1) :
    Denotes (s.start.x + part * s.direction.x) (rounded (place a d t)) := by
  have size : |t * d| < 2 ^ 53 := by
    rw [abs_mul]
    have product := mul_le_mul within wide (abs_nonneg d) zero_le_one
    linarith
  have gone := (parameter.mul moves).denotes_of_lt (by linarith)
  have rest : |rounded (t * d)| < 2 ^ 54 := abs_rounded_lt size
  refine (level.startX.add gone).denotes_of_lt ((abs_add_le _ _).trans_lt ?_)
  linarith

/-- The two numbers are on either side of all columns, and not further apart than whole numbers are
that a mantissa holds. -/
structure Crosses (width : ℕ) (a b : ℝ) : Prop where
  left : min a b ≤ 0
  right : width ≤ max a b
  wide : |b - a| ≤ 2 ^ 52

section Sizes

variable (crosses : Crosses width a b)

include crosses

/-- One of the numbers is to the left of the columns and the other one is to the right of them. -/
theorem Crosses.sides : (a ≤ 0 ∧ width ≤ b) ∨ (b ≤ 0 ∧ width ≤ a) := by
  obtain ⟨left, right, -⟩ := crosses
  rcases le_total a b with order | order
  · rw [min_eq_left order] at left
    rw [max_eq_right order] at right
    exact .inl ⟨left, right⟩
  · rw [min_eq_right order] at left
    rw [max_eq_left order] at right
    exact .inr ⟨left, right⟩

theorem Crosses.abs_start_le : |a| ≤ 2 ^ 52 := by
  have wide := abs_le.mp crosses.wide
  have columns : (0 : ℝ) ≤ width := width.cast_nonneg
  rw [abs_le]
  obtain ⟨left, right⟩ | ⟨left, right⟩ := crosses.sides
  · constructor <;> linarith
  · constructor <;> linarith

theorem Crosses.reach_left : |-1 - a| < 2 ^ 53 := by
  have near := abs_le.mp crosses.abs_start_le
  rw [abs_lt]
  constructor <;> linarith

theorem Crosses.reach_right : |width + 1 - a| < 2 ^ 53 := by
  have wide := abs_le.mp crosses.wide
  have columns : (0 : ℝ) ≤ width := width.cast_nonneg
  rw [abs_lt]
  obtain ⟨left, right⟩ | ⟨left, right⟩ := crosses.sides
  · constructor <;> linarith
  · constructor <;> linarith

theorem Crosses.width_le : width ≤ 2 ^ 52 := by
  obtain ⟨left, right, wide⟩ := crosses
  have apart : (width : ℝ) ≤ 2 ^ 52 := by
    rw [← max_sub_min_eq_abs] at wide
    linarith
  exact_mod_cast apart

theorem Crosses.moves (columns : 1 ≤ width) : rounded (b - a) ≠ 0 := by
  have some_column : (1 : ℝ) ≤ width := by exact_mod_cast columns
  obtain ⟨left, right⟩ | ⟨left, right⟩ := crosses.sides
  · have onward : 1 ≤ rounded (b - a) := denotes_one.le_rounded (by linarith)
    exact (one_pos.trans_le onward).ne'
  · have onward : rounded (b - a) ≤ -1 := denotes_one.neg.rounded_le (by linarith)
    exact (onward.trans_lt neg_one_lt_zero).ne

end Sizes

/-- Clipping leaves the parameters from where the segment comes in over one side up to where it goes
out over the other one. -/
structure Cut (s : Segment Float) (core : Box Float) (a d enter leave : ℝ)
    (range : Float × Float) : Prop extends Traverses a d enter leave where
  clip : s.clip core = some ⟨s.start + Point.scale range.1 s.direction,
    s.start + Point.scale range.2 s.direction⟩
  first : Denotes range.1 (max 0 (rounded (meeting a d enter)))
  second : Denotes range.2 (min 1 (rounded (meeting a d leave)))

/-- The sides over which a way of length `d` comes in and goes out, in this order. -/
inductive Sides (width : ℕ) (d : ℝ) : ℝ → ℝ → Prop where
  | forward : 1 ≤ d → Sides width d (-1) (width + 1)
  | backward : d ≤ -1 → Sides width d (width + 1) (-1)

section Directions

variable (level : s.Level row a b) (around : Around core width row) (crosses : Crosses width a b)
  (columns : 1 ≤ width)

include level crosses

theorem Level.direction_x : Denotes s.direction.x (rounded (b - a)) :=
  (level.stopX.sub level.startX).denotes_of_lt (by linarith [crosses.wide])

include around

/-- The rooms of the first two cuts, and the parameters that they make of them. -/
private theorem Level.rooms :
    (∃ room, Denotes (s.start.x - core.low.x) room ∧ |room| < 2 ^ 64 ∧
      room / -rounded (b - a) = meeting a (rounded (b - a)) (-1)) ∧
    ∃ room, Denotes (core.high.x - s.start.x) room ∧ |room| < 2 ^ 64 ∧
      room / rounded (b - a) = meeting a (rounded (b - a)) (width + 1) := by
  have leftReach : |a - -1| < 2 ^ 53 := abs_sub_comm a (-1) ▸ crosses.reach_left
  have rightReach := crosses.reach_right
  have leftRoom : |rounded (a - -1)| < 2 ^ 54 := abs_rounded_lt leftReach
  have rightRoom : |rounded (width + 1 - a)| < 2 ^ 54 := abs_rounded_lt rightReach
  refine ⟨⟨_, (level.startX.sub around.left).denotes_of_lt (by linarith), by linarith, ?_⟩,
    _, (around.right.sub level.startX).denotes_of_lt (by linarith), by linarith, rfl⟩
  rw [meeting, ← neg_sub, rounded_neg, neg_div_neg_eq]

/-- The side at which a segment comes in cuts its first parameter, whether this is the first cut or
the second one. -/
private theorem Level.exists_cut {enter leave : ℝ}
    (sides : Sides width (rounded (b - a)) enter leave)
    (traverses : Traverses a (rounded (b - a)) enter leave) :
    ∃ range, s.Cut core a (rounded (b - a)) enter leave range := by
  obtain ⟨⟨leftRoom, leftDenotes, leftSize, leftMeeting⟩,
    rightRoom, rightDenotes, rightSize, rightMeeting⟩ := level.rooms around crosses
  have moves := level.direction_x crosses
  have early := denotes_one.rounded_le traverses.early
  have late := rounded_nonneg traverses.late
  have ordered := rounded_mono traverses.ordered
  obtain onward | backward := sides
  · obtain ⟨range, leftCut, first, second⟩ := cutRange_enter denotes_whole.1 denotes_whole.2
      moves.neg (neg_le_neg onward) leftDenotes leftSize leftMeeting early
    obtain ⟨range', rightCut, first, second⟩ := cutRange_leave first second moves onward
      rightDenotes rightSize rightMeeting (max_le late ordered)
    exact ⟨range', traverses, level.clip_eq around leftCut rightCut, first, second⟩
  · obtain ⟨range, leftCut, first, second⟩ := cutRange_leave denotes_whole.1 denotes_whole.2
      moves.neg (le_neg_of_le_neg backward) leftDenotes leftSize leftMeeting late
    obtain ⟨range', rightCut, first, second⟩ := cutRange_enter first second moves backward
      rightDenotes rightSize rightMeeting (le_min early ordered)
    exact ⟨range', traverses, level.clip_eq around leftCut rightCut, first, second⟩

include columns

omit around in
/-- The ends of the part that is left, but for their last rounding. -/
private theorem Level.ends {enter leave : ℝ}
    (cut : s.Cut core a (rounded (b - a)) enter leave range)
    (enterReach : |enter - a| < 2 ^ 53) (leaveReach : |leave - a| < 2 ^ 53) :
    ∃ inner p q, s.clip core = some inner ∧ Denotes inner.start.x (rounded p) ∧
      Denotes inner.stop.x (rounded q) ∧ (p = a ∨ |p - enter| ≤ 3 / 2) ∧
      (q = a + rounded (b - a) ∨ |q - leave| ≤ 3 / 2) := by
  have moves := crosses.moves columns
  have direction := level.direction_x crosses
  have wide : |rounded (b - a)| ≤ 2 ^ 52 := by
    obtain ⟨low, high⟩ := abs_le.mp crosses.wide
    have bound : Denotes (Scalar.ofNat (2 ^ 52)) (2 ^ 52 : ℕ) := denotes_ofNat (by decide)
    rw [Nat.cast_pow, Nat.cast_ofNat] at bound
    exact abs_le.mpr ⟨bound.neg.le_rounded low, bound.rounded_le high⟩
  have first_le : |max 0 (rounded (meeting a (rounded (b - a)) enter))| ≤ 1 := by
    rw [abs_of_nonneg (le_max_left ..)]
    exact max_le zero_le_one (denotes_one.rounded_le cut.early)
  have second_le : |min 1 (rounded (meeting a (rounded (b - a)) leave))| ≤ 1 := by
    rw [abs_of_nonneg (le_min zero_le_one (rounded_nonneg cut.late))]
    exact min_le_left ..
  have start := place_enter moves wide enterReach cut.early
  have stop := place_leave moves wide leaveReach cut.late
  rw [direction.rounded_eq] at stop
  exact ⟨_, _, _, cut.clip, level.place_x direction crosses.abs_start_le wide cut.first first_le,
    level.place_x direction crosses.abs_start_le wide cut.second second_le, start, stop⟩

/-- A segment that crosses all columns of a box is cut to one that comes to the first column, and to
the last one. -/
theorem Level.clip_across :
    ∃ inner p q, s.clip core = some inner ∧ Denotes inner.start.x p ∧ Denotes inner.stop.x q ∧
      min p q ≤ 1 / 2 ∧ (width - 1 : ℕ) ≤ max p q := by
  have gone : |rounded (b - a) - (b - a)| ≤ 1 / 2 :=
    (abs_rounded_sub_le (k := 53) (by linarith [crosses.wide])).trans_eq (by norm_num)
  obtain ⟨gone_low, gone_high⟩ := abs_le.mp gone
  have width_le := crosses.width_le
  have first_column {p : ℝ} (le : p ≤ 1 / 2) : rounded p ≤ 1 / 2 := denotes_half.rounded_le le
  have last_column {p : ℝ} (le : width - 1 ≤ p) : (width - 1 : ℕ) ≤ rounded p :=
    (denotes_ofNat (by omega)).le_rounded ((Nat.cast_pred columns).trans_le le)
  have some_column : (1 : ℝ) ≤ width := by exact_mod_cast columns
  obtain ⟨left, right⟩ | ⟨left, right⟩ := crosses.sides
  · have onward : 1 ≤ rounded (b - a) := denotes_one.le_rounded (by linarith)
    obtain ⟨range, cut⟩ := level.exists_cut around crosses (.forward onward)
      (traverses_forward onward (by linarith) (by linarith) (by linarith))
    obtain ⟨inner, p, q, clipped, start, stop, p_near, q_near⟩ :=
      level.ends crosses columns cut crosses.reach_left crosses.reach_right
    rw [abs_le] at p_near q_near
    refine ⟨inner, _, _, clipped, start, stop, min_le_of_left_le (first_column ?_),
      le_max_of_le_right (last_column ?_)⟩
    · rcases p_near with rfl | near <;> linarith
    · rcases q_near with rfl | near <;> linarith
  · have onward : rounded (b - a) ≤ -1 := denotes_one.neg.rounded_le (by linarith)
    obtain ⟨range, cut⟩ := level.exists_cut around crosses (.backward onward)
      (traverses_backward onward (by linarith) (by linarith) (by linarith))
    obtain ⟨inner, p, q, clipped, start, stop, p_near, q_near⟩ :=
      level.ends crosses columns cut crosses.reach_right crosses.reach_left
    rw [abs_le] at p_near q_near
    refine ⟨inner, _, _, clipped, start, stop, min_le_of_right_le (first_column ?_),
      le_max_of_le_left (last_column ?_)⟩
    · rcases q_near with rfl | near <;> linarith
    · rcases p_near with rfl | near <;> linarith

end Directions

end Across

end Segment
end VectorPaint
