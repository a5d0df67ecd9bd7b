import VectorPaint.Outline.Pen

/-!
Linked chains. Segments lead from one point to another if each of them starts where the one before
ends. A chain is linked if its segments lead away from its start, and back to it if the chain is
closed; then its border leads back in any case, since that of an open chain ends with the segment
that is missing. Points are the same only if both coordinates are, so nothing is asked of the
arithmetic.
-/
namespace VectorPaint

variable {α : Type}

/-- Each segment starts where the one before ends, from the first point to the last. -/
def Leads : Point α → List (Segment α) → Point α → Prop
  | p, [], q => p = q
  | p, s :: rest, q => s.start = p ∧ Leads s.stop rest q

/-- Where segments end that set out from `p`. -/
def endFrom (p : Point α) (segments : List (Segment α)) : Point α :=
  (segments.getLast?.map Segment.stop).getD p

theorem endFrom_cons (p : Point α) (s : Segment α) (rest : List (Segment α)) :
    endFrom p (s :: rest) = endFrom s.stop rest := by
  cases rest <;> simp [endFrom, List.getLast?_cons]

namespace Leads

variable {p q r : Point α} {first second : List (Segment α)} {s : Segment α}

theorem append (there : Leads p first q) (onward : Leads q second r) :
    Leads p (first ++ second) r := by
  induction first generalizing p with
  | nil =>
    obtain rfl : p = q := there
    exact onward
  | cons s rest ih => exact ⟨there.1, ih there.2⟩

theorem eq_endFrom (there : Leads p first q) : q = endFrom p first := by
  induction first generalizing p with
  | nil => exact there.symm
  | cons s rest ih => rw [endFrom_cons, ih there.2]

/-- The end of the last segment may be moved. -/
theorem modify_last (there : Leads p first q) (some_segment : first ≠ []) :
    Leads p (first.modify (first.length - 1) fun s => { s with stop := r }) r := by
  induction first generalizing p with
  | nil => exact absurd rfl some_segment
  | cons s rest ih =>
    cases rest with
    | nil => exact ⟨there.1, rfl⟩
    | cons t rest => exact ⟨there.1, ih there.2 (List.cons_ne_nil _ _)⟩

end Leads

/-- Leading on is a matter of the first start and of every two neighbours. -/
theorem leads_iff {p q : Point α} {segments : List (Segment α)} :
    Leads p segments q ↔
      (∀ s, segments[0]? = some s → s.start = p) ∧
      (∀ i s t, segments[i]? = some s → segments[i + 1]? = some t → t.start = s.stop) ∧
      q = endFrom p segments := by
  refine ⟨fun there => ⟨?_, ?_, there.eq_endFrom⟩, ?_⟩
  · intro s first
    cases segments with
    | nil => cases first
    | cons t rest =>
      cases first
      exact there.1
  · intro i s t here next
    induction segments generalizing p i with
    | nil => cases here
    | cons u rest ih =>
      cases i with
      | zero =>
        cases here
        cases rest with
        | nil => cases next
        | cons v rest =>
          cases next
          exact there.2.1
      | succ i => exact ih there.2 i here next
  · rintro ⟨starts, follows, rfl⟩
    induction segments generalizing p with
    | nil => rfl
    | cons s rest ih =>
      rw [endFrom_cons]
      exact ⟨starts s rfl, ih (fun t first => follows 0 s t rfl first)
        (fun i t u here next => follows (i + 1) t u here next)⟩

namespace Chain

/-- The first segment starts at the start of the chain, every other one exactly where the one before
ends, and the last one of a closed chain ends exactly at the start. -/
structure Linked (c : Chain α) : Prop where
  starts : ∀ s, c.segments[0]? = some s → s.start = c.start
  follows : ∀ i s t, c.segments[i]? = some s → c.segments[i + 1]? = some t → t.start = s.stop
  returns : c.closed = true → ∃ s, c.segments.back? = some s ∧ s.stop = c.start

variable {c : Chain α}

theorem stop_eq_endFrom (c : Chain α) : c.stop = endFrom c.start c.segments.toList := by
  unfold stop endFrom
  rw [Array.getLast?_toList]
  cases c.segments.back? <;> rfl

theorem Linked.leads (linked : c.Linked) : Leads c.start c.segments.toList c.stop :=
  leads_iff.mpr ⟨by simpa using linked.starts, by simpa using linked.follows, c.stop_eq_endFrom⟩

/-- The segments around the area of a chain lead back to where they began. -/
theorem Linked.leads_border (linked : c.Linked) : Leads c.start c.border c.start := by
  unfold border
  by_cases ends : (c.closed || c.isEmpty) = true
  · rw [if_pos ends]
    suffices back : c.stop = c.start by
      have around := linked.leads
      rwa [back] at around
    rcases Bool.or_eq_true_iff.mp ends with closed | empty
    · obtain ⟨s, last, home⟩ := linked.returns closed
      simp only [stop, last, home]
    · simp only [isEmpty, Array.isEmpty_iff] at empty
      simp [stop, empty]
  · rw [if_neg ends]
    exact linked.leads.append ⟨rfl, rfl⟩

theorem linked_open {p q : Point α} {segments : Array (Segment α)}
    (there : Leads p segments.toList q) : Linked ⟨p, segments, false⟩ := by
  obtain ⟨starts, follows, -⟩ := leads_iff.mp there
  exact ⟨by simpa using starts, by simpa using follows, nofun⟩

theorem linked_closed {p q : Point α} {segments : Array (Segment α)}
    (there : Leads p segments.toList q) : Linked ⟨p, segments.push ⟨q, p⟩, true⟩ := by
  have around : Leads p (segments.push ⟨q, p⟩).toList p := by
    rw [Array.toList_push]
    exact there.append ⟨rfl, rfl⟩
  obtain ⟨starts, follows, -⟩ := leads_iff.mp around
  exact ⟨by simpa only [Array.getElem?_toList] using starts,
    by simpa only [Array.getElem?_toList] using follows, fun _ => ⟨⟨q, p⟩, by simp, rfl⟩⟩

end Chain

/-- All chains of an outline are linked. -/
def Outline.Linked (o : Outline α) : Prop := ∀ c ∈ o.chains, c.Linked

namespace Outline.Linked

variable {o : Outline α}

/-- The segment that is missing from an open chain has no ends of its own. -/
theorem finite_border [Scalar α] (linked : o.Linked)
    (finite : ∀ s ∈ o.segments, s.isFinite = true) : ∀ s ∈ o.border, s.isFinite = true := by
  intro s member
  obtain ⟨c, inside, around⟩ := List.mem_flatMap.mp member
  have drawn : ∀ t ∈ c.segments, t.isFinite = true := fun t among =>
    finite t (List.mem_flatMap.mpr ⟨c, inside, Array.mem_toList_iff.mpr among⟩)
  unfold Chain.border at around
  split at around
  · exact drawn s (Array.mem_toList_iff.mp around)
  · rename_i unclosed
    rcases List.mem_append.mp around with among | closing
    · exact drawn s (Array.mem_toList_iff.mp among)
    · obtain rfl := List.mem_singleton.mp closing
      have some_segment : c.segments ≠ #[] := by
        rintro none
        simp [Chain.isEmpty, none] at unclosed
      have size := Array.size_pos_iff.mpr some_segment
      have first := drawn _ (Array.getElem_mem size)
      have last := drawn _ (Array.back_mem size)
      have starts := linked c (Array.mem_toList_iff.mp inside) |>.starts _
        (Array.getElem?_eq_getElem size)
      have stops : c.stop = (c.segments.back size).stop := by
        rw [Chain.stop, Array.back?_eq_getElem?, Array.getElem?_eq_getElem (by omega)]
        rfl
      simp only [Segment.isFinite, Bool.and_eq_true] at first last ⊢
      exact ⟨stops ▸ last.2, starts ▸ first.1⟩

end Outline.Linked
end VectorPaint
