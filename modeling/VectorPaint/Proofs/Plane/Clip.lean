import Mathlib
import VectorPaint.Proofs.Plane.Exact

/-!
Clipping is exact. In exact arithmetic each side of the box cuts the parameters of a segment at the
place where the segment comes to that side, so after four cuts those are left whose points lie in
the box. The tolerance only matters for segments that are nearly parallel to a side: where it is
undershot, the side is taken for one that the segment does not come to.
-/
namespace VectorPaint

namespace Box

theorem contains_iff (b : Box ℝ) (p : Point ℝ) :
    b.contains p = true ↔
      (b.low.x ≤ p.x ∧ p.x ≤ b.high.x) ∧ b.low.y ≤ p.y ∧ p.y ≤ b.high.y := by
  simp only [contains, Bool.and_eq_true, decide_eq_true_iff, and_assoc]

end Box

namespace Segment

variable {s : Segment ℝ} {b : Box ℝ} {range : ℝ × ℝ} {speed room : ℝ} {P Q : ℝ → Prop}

/-- The point lies on the segment. -/
def Holds (s : Segment ℝ) (p : Point ℝ) : Prop := ∃ t, Part t ∧ p = s.at t

/-- The tolerance does not hide whether there is a motion. -/
def Clear (speed : ℝ) : Prop := speed = 0 ∨ Scalar.epsilon ≤ |speed|

theorem Clear.neg (clear : Clear speed) : Clear (-speed) := by
  rwa [Clear, neg_eq_zero, abs_neg]

/-- The range is that of the parameters with the property `P`, and is missing if there are none. -/
def Left (range : Option (ℝ × ℝ)) (P : ℝ → Prop) : Prop :=
  match range with
  | none => ∀ t, ¬ P t
  | some range => range.1 ≤ range.2 ∧ ∀ t, (range.1 ≤ t ∧ t ≤ range.2) ↔ P t

theorem Left.congr {range : Option (ℝ × ℝ)} (left : Left range P) (same : ∀ t, P t ↔ Q t) :
    Left range Q := by
  obtain rfl : P = Q := funext fun t => propext (same t)
  exact left

theorem left_whole : Left (some (0, 1)) Part := ⟨zero_le_one, fun _ => Iff.rfl⟩

theorem epsilon_pos : (0 : ℝ) < Scalar.epsilon := show (0 : ℝ) < 1 / 2 ^ 52 by positivity

theorem pos_of_epsilon_le (steep : Scalar.epsilon ≤ |speed|) (onward : ¬ speed < 0) :
    0 < speed := by
  refine (not_lt.mp onward).lt_of_ne' fun still => ?_
  rw [still, abs_zero] at steep
  exact absurd epsilon_pos (not_lt.mpr steep)

/-- One cut leaves the parameters on its side. -/
theorem left_cutRange (clear : Clear speed) (left : Left (some range) P) :
    Left (cutRange range speed room) fun t => P t ∧ t * speed ≤ room := by
  obtain ⟨ordered, members⟩ := left
  refine Left.congr ?_ fun t => and_congr_left' (members t)
  rw [exact_cutRange]
  rcases clear with rfl | steep
  · rw [if_pos (by rw [abs_zero]; exact epsilon_pos)]
    split
    · intro t kept
      linarith
    · refine ⟨ordered, fun t => ⟨fun member => ⟨member, ?_⟩, And.left⟩⟩
      linarith
  · rw [if_neg (not_lt.mpr steep)]
    split
    · -- The segment comes in over this side.
      rename_i backward
      have entered (t : ℝ) : t * speed ≤ room ↔ room / speed ≤ t :=
        (div_le_iff_of_neg backward).symm
      simp only [entered]
      split
      · rintro t ⟨⟨-, high⟩, low⟩
        linarith
      · rename_i late
        refine ⟨max_le ordered (not_lt.mp late), fun t => ?_⟩
        rw [max_le_iff]
        tauto
    · -- The segment goes out over this side.
      rename_i onward
      have forward := pos_of_epsilon_le steep onward
      have stayed (t : ℝ) : t * speed ≤ room ↔ t ≤ room / speed := (le_div_iff₀ forward).symm
      simp only [stayed]
      split
      · rintro t ⟨⟨low, -⟩, high⟩
        linarith
      · rename_i early
        refine ⟨le_min ordered (not_lt.mp early), fun t => ?_⟩
        rw [le_min_iff]
        tauto

theorem left_bind {range : Option (ℝ × ℝ)} (clear : Clear speed) (left : Left range P) :
    Left (range.bind (cutRange · speed room)) fun t => P t ∧ t * speed ≤ room := by
  cases range with
  | none => exact fun t kept => left t kept.1
  | some range => exact left_cutRange clear left

/-- What the four sides leave of the parameters. -/
noncomputable def remaining (s : Segment ℝ) (b : Box ℝ) : Option (ℝ × ℝ) :=
  ((((some (0, 1)).bind (cutRange · (-s.direction.x) (s.start.x - b.low.x))).bind
    (cutRange · s.direction.x (b.high.x - s.start.x))).bind
    (cutRange · (-s.direction.y) (s.start.y - b.low.y))).bind
    (cutRange · s.direction.y (b.high.y - s.start.y))

theorem clip_eq_map (s : Segment ℝ) (b : Box ℝ) :
    s.clip b = (s.remaining b).map fun range => ⟨s.at range.1, s.at range.2⟩ := by
  unfold clip remaining
  simp only [Scalar.exact_ofNat, Nat.cast_zero, Nat.cast_one, bind, pure, Option.bind_some,
    Option.bind_assoc, Option.map_eq_bind]
  rfl

theorem left_remaining (x : Clear s.direction.x) (y : Clear s.direction.y) :
    Left (s.remaining b) fun t => Part t ∧ b.contains (s.at t) = true := by
  refine (left_bind y (left_bind y.neg (left_bind x (left_bind x.neg left_whole)))).congr
    fun t => ?_
  have horizontal : s.direction.x = s.stop.x - s.start.x := rfl
  have vertical : s.direction.y = s.stop.y - s.start.y := rfl
  rw [Box.contains_iff, horizontal, vertical]
  simp only [Segment.at]
  constructor
  · rintro ⟨⟨⟨⟨part, left⟩, right⟩, upper⟩, lower⟩
    exact ⟨part, ⟨by linarith, by linarith⟩, by linarith, by linarith⟩
  · rintro ⟨part, ⟨left, right⟩, upper, lower⟩
    exact ⟨⟨⟨⟨part, by linarith⟩, by linarith⟩, by linarith⟩, by linarith⟩

/-- Points between two points of a line are on the line. -/
theorem at_between (s : Segment ℝ) (first last t : ℝ) :
    (⟨s.at first, s.at last⟩ : Segment ℝ).at t = s.at (first + t * (last - first)) := by
  simp only [Segment.at, Point.mk.injEq]
  constructor <;> ring

/-- A segment between two points of another one. -/
theorem holds_between {first last : ℝ} (ordered : first ≤ last) (p : Point ℝ) :
    (⟨s.at first, s.at last⟩ : Segment ℝ).Holds p ↔
      ∃ t, (first ≤ t ∧ t ≤ last) ∧ p = s.at t := by
  constructor
  · rintro ⟨t, ⟨low, high⟩, rfl⟩
    refine ⟨_, ⟨?_, ?_⟩, s.at_between first last t⟩ <;> nlinarith
  · rintro ⟨t, ⟨low, high⟩, rfl⟩
    rcases ordered.eq_or_lt with rfl | wide
    · exact ⟨0, ⟨le_rfl, zero_le_one⟩, by rw [at_between, zero_mul, add_zero, le_antisymm high low]⟩
    · have positive : 0 < last - first := sub_pos.mpr wide
      refine ⟨(t - first) / (last - first), ⟨by positivity, ?_⟩, ?_⟩
      · rw [div_le_one positive]
        linarith
      · rw [at_between, div_mul_cancel₀ _ positive.ne', add_sub_cancel]

/-- A side that has both ends before it cuts nothing off. -/
theorem cutRange_whole (start : 0 ≤ room) (stop : speed ≤ room) :
    cutRange (0, 1) speed room = some (0, 1) := by
  rw [exact_cutRange]
  split
  · rw [if_neg (not_lt.mpr start)]
  · split
    · rename_i backward
      have early : room / speed ≤ 0 := div_nonpos_of_nonneg_of_nonpos start backward.le
      rw [if_neg (by linarith), max_eq_left early]
    · rename_i steep onward
      have forward := pos_of_epsilon_le (not_lt.mp steep) onward
      have late : 1 ≤ room / speed := (one_le_div forward).mpr stop
      rw [if_neg (by linarith), min_eq_left late]

/-- A segment whose ends lie in the box is kept as it is, even one that the tolerance takes for
parallel to a side. -/
theorem clip_eq_self (start : b.contains s.start = true) (stop : b.contains s.stop = true) :
    s.clip b = some s := by
  rw [Box.contains_iff] at start stop
  obtain ⟨⟨left, right⟩, upper, lower⟩ := start
  obtain ⟨⟨left', right'⟩, upper', lower'⟩ := stop
  have horizontal : s.direction.x = s.stop.x - s.start.x := rfl
  have vertical : s.direction.y = s.stop.y - s.start.y := rfl
  have whole : s.remaining b = some (0, 1) := by
    rw [remaining, Option.bind_some, cutRange_whole (by linarith) (by linarith), Option.bind_some,
      cutRange_whole (by linarith) (by linarith), Option.bind_some,
      cutRange_whole (by linarith) (by linarith), Option.bind_some,
      cutRange_whole (by linarith) (by linarith)]
  have ends : (⟨s.at 0, s.at 1⟩ : Segment ℝ) = s := by
    simp [Segment.at]
  rw [clip_eq_map, whole, Option.map_some, ends]

theorem holds_start (s : Segment ℝ) : s.Holds s.start :=
  ⟨0, ⟨le_rfl, zero_le_one⟩, by simp [Segment.at]⟩

theorem holds_stop (s : Segment ℝ) : s.Holds s.stop :=
  ⟨1, ⟨zero_le_one, le_rfl⟩, by simp [Segment.at]⟩

theorem clip_eq_none_iff (x : Clear s.direction.x) (y : Clear s.direction.y) :
    s.clip b = none ↔ ∀ p, s.Holds p → b.contains p = false := by
  have left := left_remaining (b := b) x y
  rw [clip_eq_map, Option.map_eq_none_iff]
  cases found : s.remaining b with
  | none =>
    rw [found] at left
    refine iff_of_true rfl ?_
    rintro p ⟨t, part, rfl⟩
    exact eq_false_of_ne_true fun inside => left t ⟨part, inside⟩
  | some range =>
    rw [found] at left
    refine iff_of_false (Option.some_ne_none range) fun outside => ?_
    obtain ⟨part, inside⟩ := (left.2 range.1).mp ⟨le_rfl, left.1⟩
    rw [outside _ ⟨_, part, rfl⟩] at inside
    cases inside

theorem holds_clip {inner : Segment ℝ} (x : Clear s.direction.x) (y : Clear s.direction.y)
    (clipped : s.clip b = some inner) (p : Point ℝ) :
    inner.Holds p ↔ s.Holds p ∧ b.contains p = true := by
  have left := left_remaining (b := b) x y
  rw [clip_eq_map, Option.map_eq_some_iff] at clipped
  obtain ⟨range, found, rfl⟩ := clipped
  rw [found] at left
  rw [holds_between left.1]
  constructor
  · rintro ⟨t, member, rfl⟩
    obtain ⟨part, inside⟩ := (left.2 t).mp member
    exact ⟨⟨t, part, rfl⟩, inside⟩
  · rintro ⟨⟨t, part, rfl⟩, inside⟩
    exact ⟨t, (left.2 t).mpr ⟨part, inside⟩, rfl⟩

theorem direction_clip {inner : Segment ℝ} (x : Clear s.direction.x) (y : Clear s.direction.y)
    (clipped : s.clip b = some inner) :
    ∃ k, 0 ≤ k ∧ inner.direction = Point.scale k s.direction := by
  have left := left_remaining (b := b) x y
  rw [clip_eq_map, Option.map_eq_some_iff] at clipped
  obtain ⟨range, found, rfl⟩ := clipped
  rw [found] at left
  refine ⟨range.2 - range.1, sub_nonneg.mpr left.1, ?_⟩
  simp only [direction, Point.exact_sub, Point.scale, Segment.at, Point.mk.injEq]
  constructor <;> ring

/-- Clipping a segment to a box leaves exactly the points of the segment that lie in the box. -/
theorem clip_exact (s : Segment ℝ) (b : Box ℝ) (x : Clear s.direction.x)
    (y : Clear s.direction.y) :
    (s.clip b = none ↔ ∀ p, s.Holds p → b.contains p = false) ∧
      (∀ inner, s.clip b = some inner →
        (∃ k, 0 ≤ k ∧ inner.direction = Point.scale k s.direction) ∧
          (∀ p, inner.Holds p ↔ s.Holds p ∧ b.contains p = true) ∧
            inner.clip b = some inner) ∧
      ((∀ p, s.Holds p → b.contains p = true) → s.clip b = some s) := by
  refine ⟨clip_eq_none_iff x y, fun inner clipped => ?_,
    fun inside => clip_eq_self (inside _ s.holds_start) (inside _ s.holds_stop)⟩
  have members := holds_clip x y clipped
  exact ⟨direction_clip x y clipped, members, clip_eq_self
    ((members _).mp inner.holds_start).2 ((members _).mp inner.holds_stop).2⟩

/-- A segment along the rows. -/
def level (first last y : ℝ) : Segment ℝ := ⟨⟨first, y⟩, ⟨last, y⟩⟩

theorem direction_level (first last y : ℝ) :
    (level first last y).direction = ⟨last - first, 0⟩ := by
  simp only [level, direction, Point.exact_sub, sub_self]

theorem epsilon_le_of_one_le (long : 1 ≤ speed) : Scalar.epsilon ≤ |speed| := by
  refine (show (1 / 2 ^ 52 : ℝ) ≤ 1 by norm_num).trans (long.trans (le_abs_self speed))

/-- A segment that runs through a box from side to side. -/
theorem clip_level :
    (Clear (level (-10) 20 5).direction.x ∧ Clear (level (-10) 20 5).direction.y) ∧
      (level (-10) 20 5).clip ⟨⟨0, 0⟩, ⟨10, 10⟩⟩ = some (level 0 10 5) ∧
        ∀ p, (level 0 10 5).Holds p ↔
          (level (-10) 20 5).Holds p ∧ Box.contains ⟨⟨0, 0⟩, ⟨10, 10⟩⟩ p = true := by
  have steep : Scalar.epsilon ≤ |(20 : ℝ) - -10| := epsilon_le_of_one_le (by norm_num)
  have x : Clear (level (-10) 20 5).direction.x := .inr (by rw [direction_level]; exact steep)
  have y : Clear (level (-10) 20 5).direction.y := .inl (by rw [direction_level])
  have left : cutRange (0, 1) (-(20 - -10)) (-10 - 0) = some ((1 / 3 : ℝ), 1) := by
    rw [exact_cutRange, abs_neg, if_neg (not_lt.mpr steep)]
    norm_num
  have right : cutRange (1 / 3, 1) (20 - -10) (10 - -10) = some ((1 / 3 : ℝ), 2 / 3) := by
    rw [exact_cutRange, if_neg (not_lt.mpr steep)]
    norm_num
  have beside (room : ℝ) (inside : 0 ≤ room) :
      cutRange (1 / 3, 2 / 3) 0 room = some (1 / 3, 2 / 3) := by
    rw [exact_cutRange, abs_zero, if_pos epsilon_pos, if_neg (not_lt.mpr inside)]
  have clipped : (level (-10) 20 5).clip ⟨⟨0, 0⟩, ⟨10, 10⟩⟩ = some (level 0 10 5) := by
    rw [clip_eq_map, remaining, direction_level]
    simp only [level, Option.bind_some, neg_zero]
    rw [left, Option.bind_some, right, Option.bind_some, beside _ (by norm_num), Option.bind_some,
      beside _ (by norm_num), Option.map_some]
    simp only [Segment.at]
    norm_num
  exact ⟨⟨x, y⟩, clipped, ((clip_exact _ _ x y).2.1 _ clipped).2.1⟩

end Segment
end VectorPaint
