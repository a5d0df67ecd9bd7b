import VectorPaint.Outline.Pen
import VectorPaint.Proofs.Plane.Exact

/-!
The box of an outline. It grows segment by segment, whatever chains these are in, so in exact
arithmetic it holds the box of each of them; there is no box only where there are no segments.
-/
namespace VectorPaint

namespace Box

theorem within_extendBox (s : Segment ℝ) (b : Box ℝ) :
    b.Within (s.extendBox b) ∧ s.box.Within (s.extendBox b) := by
  simp only [Segment.extendBox, exact_extend, Segment.exact_box]
  constructor <;> constructor <;> grind

end Box

/-- Grows a box by a segment; the first one makes the box. -/
def Segment.growBox {α : Type} [Scalar α] (box : Option (Box α)) (s : Segment α) :
    Option (Box α) :=
  some (box.elim s.box s.extendBox)

namespace Outline

theorem box_eq {α : Type} [Scalar α] (o : Outline α) :
    o.box = o.segments.foldl Segment.growBox none := by
  unfold box segments
  rw [List.foldl_flatMap, ← Array.foldl_toList]
  congr 1
  funext box c
  rw [Chain.growBox, ← Array.foldl_toList]
  congr 1
  funext box s
  cases box <;> rfl

private theorem exists_foldl_growBox (segments : List (Segment ℝ)) (b : Box ℝ) :
    ∃ b', segments.foldl Segment.growBox (some b) = some b' ∧ b.Within b' ∧
      ∀ s ∈ segments, s.box.Within b' := by
  induction segments generalizing b with
  | nil => exact ⟨b, rfl, .refl b, by simp⟩
  | cons s rest ih =>
    obtain ⟨kept, grown⟩ := Box.within_extendBox s b
    obtain ⟨b', folded, within, others⟩ := ih (s.extendBox b)
    exact ⟨b', folded, kept.trans within,
      List.forall_mem_cons.mpr ⟨grown.trans within, others⟩⟩

theorem segments_of_box_eq_none {o : Outline ℝ} (empty : o.box = none) : o.segments = [] := by
  rw [box_eq] at empty
  cases segments_eq : o.segments with
  | nil => rfl
  | cons s rest =>
    obtain ⟨b, folded, -⟩ := exists_foldl_growBox rest s.box
    rw [segments_eq] at empty
    cases folded.symm.trans empty

theorem within_box {o : Outline ℝ} {b : Box ℝ} (boxed : o.box = some b) :
    b.Ordered ∧ ∀ s ∈ o.segments, s.box.Within b := by
  rw [box_eq] at boxed
  cases segments_eq : o.segments with
  | nil =>
    rw [segments_eq] at boxed
    cases boxed
  | cons s rest =>
    obtain ⟨b', folded, first, others⟩ := exists_foldl_growBox rest s.box
    rw [segments_eq] at boxed
    obtain rfl : b' = b := Option.some.inj (folded.symm.trans boxed)
    exact ⟨first.ordered (Box.ordered_ofCorners ..), List.forall_mem_cons.mpr ⟨first, others⟩⟩

end Outline
end VectorPaint
