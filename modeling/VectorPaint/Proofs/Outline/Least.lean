import VectorPaint.Proofs.Outline.Box
import VectorPaint.Proofs.Plane.Least

/-!
Least boxes of many points. To extend a box by points one after the other gives the least box that
holds it and all of them, so their order does not matter. The box of an outline is that of its first
segment, extended by the ends of the others: the least one that holds the ends of all segments,
whatever chains these are in.
-/
namespace VectorPaint

/-- Both ends of a segment. -/
def Segment.ends {α : Type} (s : Segment α) : List (Point α) := [s.start, s.stop]

namespace Box

variable {a b c : Box Float} {p : Point Float} {P : Point Float → Prop}

/-- The boxes that are made from finite points and finite segments, without an overflow. -/
inductive Reachable : Box Float → Prop where
  | ofCorners {p q : Point Float} : p.isFinite = true → q.isFinite = true →
      Reachable (.ofCorners p q)
  | ofSegment {s : Segment Float} : s.isFinite = true → Reachable s.box
  | extend {b : Box Float} {p : Point Float} : Reachable b → p.isFinite = true →
      Reachable (b.extend p)
  | extendBox {b : Box Float} {s : Segment Float} : Reachable b → s.isFinite = true →
      Reachable (s.extendBox b)
  | meet {a b c : Box Float} : Reachable a → Reachable b → a.meet b = some c → Reachable c
  | inflate {b : Box Float} {margin : Float} : Reachable b → Scalar.ofNat 0 ≤ margin →
      (b.inflate margin).low.isFinite = true → (b.inflate margin).high.isFinite = true →
      Reachable (b.inflate margin)

theorem Reachable.proper (reachable : Reachable b) : b.Proper := by
  induction reachable with
  | ofCorners first second => exact proper_ofCorners first second
  | ofSegment finite =>
    obtain ⟨start, stop⟩ := Bool.and_eq_true_iff.mp finite
    exact proper_ofCorners start stop
  | extend _ finite ih => exact ih.extend finite
  | extendBox _ finite ih =>
    obtain ⟨start, stop⟩ := Bool.and_eq_true_iff.mp finite
    exact (ih.extend start).extend stop
  | meet _ _ met ih ih' =>
    rcases meet_cases ih ih' with ⟨none, -⟩ | ⟨c, met', proper, -⟩
    · cases none.symm.trans met
    · cases met'.symm.trans met
      exact proper
  | inflate _ nonneg low high ih => exact ih.inflate nonneg low high

theorem reachable_foldl_extend {points : List (Point Float)} (reachable : Reachable b)
    (finite : ∀ p ∈ points, p.isFinite = true) : Reachable (points.foldl Box.extend b) := by
  induction points generalizing b with
  | nil => exact reachable
  | cons p rest ih =>
    obtain ⟨here, others⟩ := List.forall_mem_cons.mp finite
    exact ih (reachable.extend here) others

theorem least_foldl_extend {points : List (Point Float)} (least : b.Least P) (proper : b.Proper)
    (finite : ∀ p ∈ points, p.isFinite = true) :
    (points.foldl Box.extend b).Least fun p => P p ∨ p ∈ points := by
  induction points generalizing b P with
  | nil => exact least.congr fun p => by simp
  | cons p rest ih =>
    obtain ⟨here, others⟩ := List.forall_mem_cons.mp finite
    refine (ih (least.extend proper here) (proper.extend here) others).congr fun q => ?_
    rw [List.mem_cons, or_assoc]

/-- The order in which a box is extended does not matter. -/
theorem foldl_extend_beq {points points' : List (Point Float)} (reachable : Reachable b)
    (finite : ∀ p ∈ points, p.isFinite = true) (same : points.Perm points') :
    (points.foldl Box.extend b == points'.foldl Box.extend b) = true := by
  have finite' : ∀ p ∈ points', p.isFinite = true := fun p member =>
    finite p (same.mem_iff.mpr member)
  have least := least_foldl_extend (least_self b) reachable.proper finite
  have least' := least_foldl_extend (least_self b) reachable.proper finite'
  refine least.beq (least'.congr fun p => ?_) (reachable_foldl_extend reachable finite).proper
    (reachable_foldl_extend reachable finite').proper
  rw [same.mem_iff]

end Box

namespace Outline

theorem foldl_growBox {α : Type} [Scalar α] (segments : List (Segment α)) (b : Box α) :
    segments.foldl Segment.growBox (some b) =
      some ((segments.flatMap Segment.ends).foldl Box.extend b) := by
  induction segments generalizing b with
  | nil => rfl
  | cons s rest ih => exact ih (s.extendBox b)

/-- The box of an outline with segments is reached, and it is the least one around their ends. -/
theorem exists_least_box {o : Outline Float} (finite : ∀ s ∈ o.segments, s.isFinite = true)
    (drawn : o.segments ≠ []) :
    ∃ b, o.box = some b ∧ Box.Reachable b ∧
      b.Least fun p => ∃ s ∈ o.segments, p = s.start ∨ p = s.stop := by
  rw [box_eq]
  cases segments_eq : o.segments with
  | nil => exact absurd segments_eq drawn
  | cons s rest =>
    rw [segments_eq] at finite
    obtain ⟨here, others⟩ := List.forall_mem_cons.mp finite
    obtain ⟨start, stop⟩ := Bool.and_eq_true_iff.mp here
    have ends : ∀ p ∈ rest.flatMap Segment.ends, p.isFinite = true := by
      intro p member
      obtain ⟨t, among, one⟩ := List.mem_flatMap.mp member
      obtain ⟨start, stop⟩ := Bool.and_eq_true_iff.mp (others t among)
      rcases List.mem_pair.mp one with rfl | rfl
      exacts [start, stop]
    refine ⟨_, foldl_growBox rest s.box, Box.reachable_foldl_extend (.ofSegment here) ends, ?_⟩
    refine (Box.least_foldl_extend (Box.least_ofCorners start stop)
      (Box.proper_ofCorners start stop) ends).congr fun p => ?_
    simp [Segment.ends]

theorem box_eq_none_iff {α : Type} [Scalar α] {o : Outline α} : o.box = none ↔ o.segments = [] := by
  rw [box_eq]
  cases o.segments with
  | nil => exact iff_of_true rfl rfl
  | cons s rest =>
    have boxed : (s :: rest).foldl Segment.growBox none = some _ := foldl_growBox rest s.box
    rw [boxed]
    exact iff_of_false (Option.some_ne_none _) (List.cons_ne_nil _ _)

/-- Outlines with the same segments have the same box. -/
theorem box_beq_of_perm {o o' : Outline Float} (finite : ∀ s ∈ o.segments, s.isFinite = true)
    (same : o'.segments.Perm o.segments) : (o'.box == o.box) = true := by
  by_cases empty : o.segments = []
  · have empty' : o'.segments = [] := List.perm_nil.mp (empty ▸ same)
    rw [box_eq_none_iff.mpr empty, box_eq_none_iff.mpr empty']
    rfl
  · have drawn' : o'.segments ≠ [] := fun none => empty (List.nil_perm.mp (none ▸ same))
    have finite' : ∀ s ∈ o'.segments, s.isFinite = true := fun s member =>
      finite s (same.mem_iff.mp member)
    obtain ⟨b, boxed, reachable, least⟩ := exists_least_box finite empty
    obtain ⟨b', boxed', reachable', least'⟩ := exists_least_box finite' drawn'
    rw [boxed, boxed']
    refine least'.beq (least.congr fun p => ?_) reachable'.proper reachable.proper
    simp only [same.mem_iff]

end Outline

/-- Boxes that are made from finite points without an overflow have their sides in order. Two of
them have a common part just if some point lies in both, and it holds just the points of both. To
extend a box by a point gives the least box that holds both, and the order of several points does
not matter. The box of an outline of finite segments is missing just if there are none; otherwise it
is the least one that holds the ends of all segments, in whatever order and chains they are. -/
theorem Box.reachable_algebra :
    (∀ b, Reachable b → b.low.x ≤ b.high.x ∧ b.low.y ≤ b.high.y) ∧
    (∀ a b, Reachable a → Reachable b →
      ((∃ c, a.meet b = some c) ↔ ∃ p, a.contains p = true ∧ b.contains p = true) ∧
      ∀ c, a.meet b = some c → ∀ p,
        c.contains p = true ↔ a.contains p = true ∧ b.contains p = true) ∧
    (∀ b p, Reachable b → p.isFinite = true →
      (b.extend p).Least fun q => b.contains q = true ∨ q = p) ∧
    (∀ b (points points' : List (Point Float)), Reachable b →
      (∀ p ∈ points, p.isFinite = true) → points.Perm points' →
        (points.foldl extend b == points'.foldl extend b) = true) ∧
    ∀ o : Outline Float, (∀ s ∈ o.segments, s.isFinite = true) →
      (o.box = none ↔ o.segments = []) ∧
      (∀ b, o.box = some b → Reachable b ∧
        b.Least fun p => ∃ s ∈ o.segments, p = s.start ∨ p = s.stop) ∧
      ∀ o' : Outline Float, o'.segments.Perm o.segments → (o'.box == o.box) = true := by
  refine ⟨fun b reachable => ⟨reachable.proper.x, reachable.proper.y⟩, ?_, ?_, ?_, ?_⟩
  · intro a b first second
    rcases meet_cases first.proper second.proper with ⟨none, apart⟩ | ⟨c, met, proper, members⟩
    · refine ⟨iff_of_false ?_ fun ⟨p, both⟩ => apart p both, fun c met => ?_⟩
      · rintro ⟨c, met⟩
        cases none.symm.trans met
      · cases none.symm.trans met
    · refine ⟨iff_of_true ⟨c, met⟩ ⟨c.low, (members _).mp proper.contains_low⟩, fun d met' => ?_⟩
      cases met.symm.trans met'
      exact members
  · intro b p reachable finite
    exact (least_self b).extend reachable.proper finite
  · intro b points points' reachable finite same
    exact foldl_extend_beq reachable finite same
  · intro o finite
    refine ⟨Outline.box_eq_none_iff, fun b boxed => ?_, fun o' same =>
      Outline.box_beq_of_perm finite same⟩
    have drawn : o.segments ≠ [] := fun empty =>
      Option.some_ne_none b (boxed.symm.trans (Outline.box_eq_none_iff.mpr empty))
    obtain ⟨b', boxed', found⟩ := Outline.exists_least_box finite drawn
    cases boxed'.symm.trans boxed
    exact found

/-- Two chains of one segment each. -/
def Outline.twoLines (first second : Segment Float) : Outline Float :=
  ⟨#[⟨first.start, #[first], false⟩, ⟨second.start, #[second], false⟩]⟩

/-- An inflated box that touches another one at an edge has a part of it, zeros of different sign
extend a box to the same one in either order, and so do two lines in either order. -/
theorem Box.reachable_touching :
    let a : Box Float := ofCorners ⟨4, 5⟩ ⟨1, 2⟩
    let b : Box Float := (ofCorners ⟨8, 0⟩ ⟨5, 3⟩).inflate 1
    let down : Segment Float := ⟨⟨0, 1⟩, ⟨3, 4⟩⟩
    let up : Segment Float := ⟨⟨-2, 5⟩, ⟨1, 0⟩⟩
    (Reachable a ∧ Reachable b ∧ b.low.x = a.high.x ∧ (∃ c, a.meet b = some c)) ∧
    ((Point.isFinite ⟨0.0, -0.0⟩ = true ∧ Point.isFinite ⟨-0.0, 0.0⟩ = true) ∧
      ([⟨0.0, -0.0⟩, ⟨-0.0, 0.0⟩].foldl extend a == [⟨-0.0, 0.0⟩, ⟨0.0, -0.0⟩].foldl extend a) =
        true) ∧
    (down.isFinite = true ∧ up.isFinite = true) ∧
      ((Outline.twoLines up down).box == (Outline.twoLines down up).box) = true := by
  intro a b down up
  obtain ⟨-, meets, -, orders, outlines⟩ := reachable_algebra
  have first : Reachable a := .ofCorners (by decide +kernel) (by decide +kernel)
  have second : Reachable b :=
    .inflate (.ofCorners (by decide +kernel) (by decide +kernel)) (by decide +kernel)
      (by decide +kernel) (by decide +kernel)
  have finite : Point.isFinite (⟨0.0, -0.0⟩ : Point Float) = true := by decide +kernel
  have finite' : Point.isFinite (⟨-0.0, 0.0⟩ : Point Float) = true := by decide +kernel
  have downFinite : down.isFinite = true := by decide +kernel
  have upFinite : up.isFinite = true := by decide +kernel
  have shared : a.contains ⟨4, 2⟩ = true ∧ b.contains ⟨4, 2⟩ = true := by decide +kernel
  refine ⟨⟨first, second, by decide +kernel, (meets a b first second).1.mpr ⟨_, shared⟩⟩,
    ⟨⟨finite, finite'⟩, orders a _ _ first (by simp [finite, finite']) (.swap ..)⟩,
    ⟨downFinite, upFinite⟩, (outlines (.twoLines down up) ?_).2.2 _ (.swap ..)⟩
  simp [Outline.twoLines, Outline.segments, downFinite, upFinite]

end VectorPaint
