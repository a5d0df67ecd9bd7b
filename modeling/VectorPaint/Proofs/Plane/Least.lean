import VectorPaint.Plane.Basic
import VectorPaint.Proofs.Scalar.Order

/-!
Boxes of floats and the points that they hold. A box that is made from finite points has its sides
in order and all its numbers finite, whatever was done to it, unless it was inflated beyond the
range of floats. The common part of two such boxes holds just what both hold, and to extend a box by
a point is to join it with the box of that point alone: a join is the least box that holds what its
two parts hold. Least boxes for the same points are the same, but perhaps for the signs of zeros.
-/
namespace VectorPaint

open Binary64

theorem Point.finite_iff {p : Point Float} :
    p.isFinite = true ↔ p.x.isFinite = true ∧ p.y.isFinite = true := by
  rw [isFinite, Bool.and_eq_true]
  rfl

namespace Box

variable {a b c : Box Float} {p q : Point Float} {P Q : Point Float → Prop}

theorem contains_iff_between (b : Box Float) (p : Point Float) :
    b.contains p = true ↔
      (b.low.x ≤ p.x ∧ p.x ≤ b.high.x) ∧ b.low.y ≤ p.y ∧ p.y ≤ b.high.y := by
  simp only [contains, Bool.and_eq_true, decide_eq_true_iff, and_assoc]

/-- The sides are finite and in order. -/
structure Proper (b : Box Float) : Prop where
  low : b.low.isFinite = true
  high : b.high.isFinite = true
  x : b.low.x ≤ b.high.x
  y : b.low.y ≤ b.high.y

theorem Proper.contains_low (proper : b.Proper) : b.contains b.low = true := by
  rw [contains_iff_between]
  exact ⟨⟨le_self (determinate_of_le proper.x).1, proper.x⟩,
    le_self (determinate_of_le proper.y).1, proper.y⟩

theorem Proper.contains_high (proper : b.Proper) : b.contains b.high = true := by
  rw [contains_iff_between]
  exact ⟨⟨proper.x, le_self (determinate_of_le proper.x).2⟩,
    proper.y, le_self (determinate_of_le proper.y).2⟩

/-- A box that holds two corners of another one holds all of it. -/
theorem contains_of_corners (low : c.contains b.low = true) (high : c.contains b.high = true)
    (inside : b.contains p = true) : c.contains p = true := by
  rw [contains_iff_between] at low high inside ⊢
  exact ⟨⟨Binary64.le_trans low.1.1 inside.1.1, Binary64.le_trans inside.1.2 high.1.2⟩,
    Binary64.le_trans low.2.1 inside.2.1, Binary64.le_trans inside.2.2 high.2.2⟩

section Least

/-- The box holds the points of a kind, and nothing that could be left out. -/
structure Least (b : Box Float) (P : Point Float → Prop) : Prop where
  holds (p : Point Float) : P p → b.contains p = true
  least (c : Box Float) : (∀ p, P p → c.contains p = true) →
    ∀ p, b.contains p = true → c.contains p = true

theorem Least.congr (least : b.Least P) (same : ∀ p, P p ↔ Q p) : b.Least Q := by
  obtain rfl : P = Q := funext fun p => propext (same p)
  exact least

theorem least_self (b : Box Float) : b.Least fun p => b.contains p = true :=
  ⟨fun _ => id, fun _ => id⟩

/-- Least boxes for the same points are the same. -/
theorem Least.beq (first : a.Least P) (second : b.Least P) (proper : a.Proper)
    (proper' : b.Proper) : (a == b) = true := by
  have within := first.least b second.holds
  have within' := second.least a first.holds
  have low := (contains_iff_between ..).mp (within _ proper.contains_low)
  have high := (contains_iff_between ..).mp (within _ proper.contains_high)
  have low' := (contains_iff_between ..).mp (within' _ proper'.contains_low)
  have high' := (contains_iff_between ..).mp (within' _ proper'.contains_high)
  have corner : (a.low == b.low) = true := by
    rw [← Bool.and_eq_true_iff.mpr ⟨beq_of_le low'.1.1 low.1.1, beq_of_le low'.2.1 low.2.1⟩]
    rfl
  have corner' : (a.high == b.high) = true := by
    rw [← Bool.and_eq_true_iff.mpr ⟨beq_of_le high.1.2 high'.1.2, beq_of_le high.2.2 high'.2.2⟩]
    rfl
  exact Bool.and_eq_true_iff.mpr ⟨corner, corner'⟩

/-- The sides of the first box are the outer ones of the two others. -/
structure Join (c a b : Box Float) : Prop where
  left : Smaller c.low.x a.low.x b.low.x
  right : Larger c.high.x a.high.x b.high.x
  upper : Smaller c.low.y a.low.y b.low.y
  lower : Larger c.high.y a.high.y b.high.y

theorem Join.least (join : c.Join a b) (first : a.Least P) (second : b.Least Q)
    (proper : a.Proper) (proper' : b.Proper) : c.Least fun p => P p ∨ Q p := by
  constructor
  · rintro p (held | held)
    · have inside := (contains_iff_between ..).mp (first.holds p held)
      rw [contains_iff_between, join.left.iff_le, join.right.le_iff, join.upper.iff_le,
        join.lower.le_iff]
      exact ⟨⟨.inl inside.1.1, .inl inside.1.2⟩, .inl inside.2.1, .inl inside.2.2⟩
    · have inside := (contains_iff_between ..).mp (second.holds p held)
      rw [contains_iff_between, join.left.iff_le, join.right.le_iff, join.upper.iff_le,
        join.lower.le_iff]
      exact ⟨⟨.inr inside.1.1, .inr inside.1.2⟩, .inr inside.2.1, .inr inside.2.2⟩
  · intro d all p inside
    have within := first.least d fun p held => all p (.inl held)
    have within' := second.least d fun p held => all p (.inr held)
    have low := (contains_iff_between ..).mp (within _ proper.contains_low)
    have high := (contains_iff_between ..).mp (within _ proper.contains_high)
    have low' := (contains_iff_between ..).mp (within' _ proper'.contains_low)
    have high' := (contains_iff_between ..).mp (within' _ proper'.contains_high)
    rw [contains_iff_between] at inside ⊢
    exact ⟨⟨Binary64.le_trans ((join.left.le_iff _).mpr ⟨low.1.1, low'.1.1⟩) inside.1.1,
        Binary64.le_trans inside.1.2 ((join.right.iff_le _).mpr ⟨high.1.2, high'.1.2⟩)⟩,
      Binary64.le_trans ((join.upper.le_iff _).mpr ⟨low.2.1, low'.2.1⟩) inside.2.1,
      Binary64.le_trans inside.2.2 ((join.lower.iff_le _).mpr ⟨high.2.2, high'.2.2⟩)⟩

end Least

section Operations

variable {s : Segment Float} {margin : Float}

/-- The box of a single point. -/
def ofPoint (p : Point Float) : Box Float := ⟨p, p⟩

theorem proper_ofPoint (finite : p.isFinite = true) : (ofPoint p).Proper := by
  obtain ⟨x, y⟩ := Point.finite_iff.mp finite
  exact ⟨finite, finite, le_self (determinate_of_isFinite x), le_self (determinate_of_isFinite y)⟩

theorem least_ofPoint (finite : p.isFinite = true) : (ofPoint p).Least (· = p) := by
  have held : (ofPoint p).contains p = true := (proper_ofPoint finite).contains_low
  refine ⟨fun _ same => same ▸ held, fun c all _ inside => ?_⟩
  have corner : c.contains p = true := all p rfl
  exact contains_of_corners (b := ofPoint p) corner corner inside

theorem join_ofCorners (first : p.isFinite = true) (second : q.isFinite = true) :
    (ofCorners p q).Join (ofPoint p) (ofPoint q) := by
  obtain ⟨x, y⟩ := Point.finite_iff.mp first
  obtain ⟨x', y'⟩ := Point.finite_iff.mp second
  obtain ⟨left, right⟩ := sorted_spec (determinate_of_isFinite x) (determinate_of_isFinite x')
  obtain ⟨upper, lower⟩ := sorted_spec (determinate_of_isFinite y) (determinate_of_isFinite y')
  exact ⟨left, right, upper, lower⟩

theorem join_extend (proper : b.Proper) (finite : p.isFinite = true) :
    (b.extend p).Join b (ofPoint p) := by
  obtain ⟨x, y⟩ := Point.finite_iff.mp finite
  have across := determinate_of_le proper.x
  have down := determinate_of_le proper.y
  exact ⟨smaller_least across.1 (determinate_of_isFinite x),
    larger_greatest across.2 (determinate_of_isFinite x),
    smaller_least down.1 (determinate_of_isFinite y),
    larger_greatest down.2 (determinate_of_isFinite y)⟩

theorem least_ofCorners (first : p.isFinite = true) (second : q.isFinite = true) :
    (ofCorners p q).Least fun r => r = p ∨ r = q :=
  (join_ofCorners first second).least (least_ofPoint first) (least_ofPoint second)
    (proper_ofPoint first) (proper_ofPoint second)

theorem Least.extend (least : b.Least P) (proper : b.Proper) (finite : p.isFinite = true) :
    (b.extend p).Least fun q => P q ∨ q = p :=
  (join_extend proper finite).least least (least_ofPoint finite) proper (proper_ofPoint finite)

theorem ofCorners_of_le {α : Type} [Scalar α] {p q : Point α} (x : p.x ≤ q.x) (y : p.y ≤ q.y) :
    ofCorners p q = ⟨p, q⟩ := by
  simp only [ofCorners, if_pos x, if_pos y]

/-- Two ranges have no number in common, or their common part runs from the larger one of their
beginnings to the smaller one of their ends. -/
theorem meetRanges_cases {low₀ high₀ low₁ high₁ : Float} (first : low₀ ≤ high₀)
    (second : low₁ ≤ high₁) :
    (meetRanges low₀ high₀ low₁ high₁ = none ∧
      ∀ x, ¬ ((low₀ ≤ x ∧ x ≤ high₀) ∧ low₁ ≤ x ∧ x ≤ high₁)) ∨
    ∃ low high, meetRanges low₀ high₀ low₁ high₁ = some (low, high) ∧ low ≤ high ∧
      Larger low low₀ low₁ ∧ Smaller high high₀ high₁ := by
  obtain ⟨start, stop⟩ := determinate_of_le first
  obtain ⟨start', stop'⟩ := determinate_of_le second
  unfold meetRanges
  split
  · rename_i after
    refine .inl ⟨rfl, fun x both => ?_⟩
    exact (Binary64.not_lt_iff stop' start).mpr (Binary64.le_trans both.1.1 both.2.2) after
  · rename_i reached
    split
    · rename_i before
      refine .inl ⟨rfl, fun x both => ?_⟩
      exact (Binary64.not_lt_iff stop start').mpr (Binary64.le_trans both.2.1 both.1.2) before
    · rename_i reached'
      have larger := larger_greatest start start'
      have smaller := smaller_least stop stop'
      refine .inr ⟨_, _, rfl, ?_, larger, smaller⟩
      rw [larger.iff_le, smaller.le_iff, smaller.le_iff]
      exact ⟨⟨first, (Binary64.not_lt_iff stop' start).mp reached⟩,
        (Binary64.not_lt_iff stop start').mp reached', second⟩

/-- Two boxes have no point in common, or their common part holds just the points of both. -/
theorem meet_cases (first : a.Proper) (second : b.Proper) :
    (a.meet b = none ∧ ∀ p, ¬ (a.contains p = true ∧ b.contains p = true)) ∨
    ∃ c, a.meet b = some c ∧ c.Proper ∧
      ∀ p, c.contains p = true ↔ a.contains p = true ∧ b.contains p = true := by
  simp only [contains_iff_between]
  rcases meetRanges_cases first.x second.x with
    ⟨columns, apart⟩ | ⟨left, right, columns, across, largerX, smallerX⟩
  · refine .inl ⟨by simp [meet, columns], fun p both => ?_⟩
    exact apart p.x ⟨both.1.1, both.2.1⟩
  · rcases meetRanges_cases first.y second.y with
      ⟨rows, apart⟩ | ⟨upper, lower, rows, down, largerY, smallerY⟩
    · refine .inl ⟨by simp [meet, columns, rows], fun p both => ?_⟩
      exact apart p.y ⟨both.1.2, both.2.2⟩
    · have corners : ofCorners ⟨left, upper⟩ ⟨right, lower⟩ = ⟨⟨left, upper⟩, ⟨right, lower⟩⟩ :=
        ofCorners_of_le across down
      obtain ⟨lowX, lowY⟩ := Point.finite_iff.mp first.low
      obtain ⟨highX, highY⟩ := Point.finite_iff.mp first.high
      obtain ⟨lowX', lowY'⟩ := Point.finite_iff.mp second.low
      obtain ⟨highX', highY'⟩ := Point.finite_iff.mp second.high
      refine .inr ⟨⟨⟨left, upper⟩, ⟨right, lower⟩⟩, by simp [meet, columns, rows, corners], ?_,
        fun p => ?_⟩
      · exact ⟨Point.finite_iff.mpr ⟨largerX.isFinite lowX lowX', largerY.isFinite lowY lowY'⟩,
          Point.finite_iff.mpr ⟨smallerX.isFinite highX highX', smallerY.isFinite highY highY'⟩,
          across, down⟩
      · simp only [largerX.iff_le, smallerX.le_iff, largerY.iff_le, smallerY.le_iff]
        tauto

theorem Join.proper (join : c.Join a b) (first : a.Proper) (second : b.Proper) : c.Proper where
  low := by
    obtain ⟨x, y⟩ := Point.finite_iff.mp first.low
    obtain ⟨x', y'⟩ := Point.finite_iff.mp second.low
    exact Point.finite_iff.mpr ⟨join.left.isFinite x x', join.upper.isFinite y y'⟩
  high := by
    obtain ⟨x, y⟩ := Point.finite_iff.mp first.high
    obtain ⟨x', y'⟩ := Point.finite_iff.mp second.high
    exact Point.finite_iff.mpr ⟨join.right.isFinite x x', join.lower.isFinite y y'⟩
  x := (join.left.iff_le _).mpr (.inl ((join.right.le_iff _).mpr (.inl first.x)))
  y := (join.upper.iff_le _).mpr (.inl ((join.lower.le_iff _).mpr (.inl first.y)))

theorem proper_ofCorners (first : p.isFinite = true) (second : q.isFinite = true) :
    (ofCorners p q).Proper :=
  (join_ofCorners first second).proper (proper_ofPoint first) (proper_ofPoint second)

theorem Proper.extend (proper : b.Proper) (finite : p.isFinite = true) : (b.extend p).Proper :=
  (join_extend proper finite).proper proper (proper_ofPoint finite)

theorem Proper.inflate (proper : b.Proper) (margin_nonneg : Scalar.ofNat 0 ≤ margin)
    (low : (b.inflate margin).low.isFinite = true)
    (high : (b.inflate margin).high.isFinite = true) : (b.inflate margin).Proper := by
  obtain ⟨x, y⟩ := Point.finite_iff.mp proper.low
  obtain ⟨x', y'⟩ := Point.finite_iff.mp proper.high
  obtain ⟨left, upper⟩ := Point.finite_iff.mp low
  exact ⟨low, high, sub_le_add proper.x x x' margin_nonneg left,
    sub_le_add proper.y y y' margin_nonneg upper⟩

end Operations

end Box
end VectorPaint
