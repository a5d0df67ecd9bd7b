import VectorPaint.Text.Pieces

/-!
The pieces of a text between separators. They are what is left of a split at every separator once
the empty parts are dropped, so it does not matter how many separators stand between two pieces, or
which ones. Before that the case of letters: nothing else has another one.
-/
namespace VectorPaint

section Case

variable {c d : Char} {fixed word : List Char}

/-- What holds of a range of characters is checked one by one. -/
theorem of_between {a b : Char} (p : Char → Prop)
    (all : ∀ k ∈ List.range' a.toNat (b.toNat + 1 - a.toNat), p (Char.ofNat k))
    (within : a ≤ c ∧ c ≤ b) : p c := by
  have above : a.toNat ≤ c.toNat := within.1
  have below : c.toNat ≤ b.toNat := within.2
  have member := all c.toNat (List.mem_range'_1.mpr (by omega))
  rwa [Char.ofNat_toNat] at member

theorem of_mem {listed : List Char} (p : Char → Prop) [DecidablePred p]
    (all : listed.all (p ·) = true) (member : c ∈ listed) : p c :=
  of_decide_eq_true (List.all_eq_true.mp all c member)

/-- Only letters have another case. -/
theorem toLower_eq_iff (other : c.isAlpha = false) : d.toLower = c ↔ d = c := by
  by_cases capital : 'A' ≤ d ∧ d ≤ 'Z'
  · have letters : d.isAlpha = true ∧ d.toLower.isAlpha = true :=
      of_between (fun d => d.isAlpha = true ∧ d.toLower.isAlpha = true) (by decide) capital
    constructor
    · rintro rfl
      exact absurd letters.2 (by simp [other])
    · rintro rfl
      exact absurd letters.1 (by simp [other])
  · have unchanged : d.toLower = d := dif_neg capital
    rw [unchanged]

theorem map_toLower_eq_iff (other : ∀ c ∈ fixed, c.isAlpha = false) :
    word.map Char.toLower = fixed ↔ word = fixed := by
  induction fixed generalizing word with
  | nil => exact List.map_eq_nil_iff
  | cons c rest ih =>
    obtain ⟨first, others⟩ := List.forall_mem_cons.mp other
    cases word with
    | nil => simp
    | cons d more =>
      rw [List.map_cons, List.cons.injEq, List.cons.injEq, toLower_eq_iff first, ih others]

end Case

namespace Text

variable {p : Char → Bool} {text inside rest : List Char} {last : Char}

/-- The parts of a text between separators that are not empty. -/
def partsBetween (p : Char → Bool) (text : List Char) : List (List Char) :=
  (text.splitOnP p).filter fun part => !part.isEmpty

theorem partsBetween_cons_of_separator {c : Char} (separates : p c = true) (text : List Char) :
    partsBetween p (c :: text) = partsBetween p text := by
  unfold partsBetween
  rw [List.splitOnP_cons_eq_if_modifyHead, if_pos separates]
  rfl

theorem partsBetween_dropWhile (p : Char → Bool) (text : List Char) :
    partsBetween p (text.dropWhile p) = partsBetween p text := by
  induction text with
  | nil => rfl
  | cons c rest ih =>
    by_cases separates : p c = true
    · rw [List.dropWhile_cons_of_pos separates, ih, partsBetween_cons_of_separator separates]
    · rw [List.dropWhile_cons_of_neg separates]

/-- A word in front of a separator, or of the end, is a part. -/
theorem partsBetween_word {word : List Char} (some_letter : word ≠ [])
    (letters : ∀ c ∈ word, p c = false) (stop : ∀ c ∈ rest.head?, p c = true) :
    partsBetween p (word ++ rest) = word :: partsBetween p rest := by
  have kept (parts : List (List Char)) : (word :: parts).filter (fun part => !part.isEmpty) =
      word :: parts.filter fun part => !part.isEmpty :=
    List.filter_cons_of_pos (by simp [some_letter])
  cases rest with
  | nil =>
    unfold partsBetween
    rw [List.append_nil, List.splitOnP_eq_singleton letters, kept]
    rfl
  | cons c more =>
    have separates := stop c rfl
    rw [partsBetween_cons_of_separator separates]
    unfold partsBetween
    rw [List.splitOnP_append_cons _ _ separates, List.splitOnP_eq_singleton letters,
      List.singleton_append, kept]

theorem pieces_eq_partsBetween (p : Char → Bool) (text : List Char) :
    pieces p text = partsBetween p text := by
  induction text using pieces.induct p with
  | case1 text none_left =>
    rw [pieces, none_left, ← partsBetween_dropWhile, none_left]
    rfl
  | case2 text c rest found ih =>
    have first : p c = false := by
      have stopped := List.head?_dropWhile_not p text
      simpa [found] using stopped
    have letters : ∀ d ∈ c :: rest.takeWhile (!p ·), p d = false := by
      refine List.forall_mem_cons.mpr ⟨first, fun d member => ?_⟩
      simpa using List.all_eq_true.mp (List.all_takeWhile (p := (!p ·)) (l := rest)) d member
    have stop : ∀ d ∈ (rest.dropWhile (!p ·)).head?, p d = true := by
      intro d next
      have stopped := List.head?_dropWhile_not (!p ·) rest
      simpa [Option.mem_def.mp next] using stopped
    have parted := partsBetween_word (List.cons_ne_nil _ _) letters stop
    rw [List.cons_append, List.takeWhile_append_dropWhile] at parted
    rw [pieces, found, ← partsBetween_dropWhile p text, found, parted, ← ih]

/-- Changing letters into letters changes the parts alike. -/
theorem partsBetween_map {f : Char → Char} (same : ∀ c, p (f c) = p c) (text : List Char) :
    partsBetween p (text.map f) = (partsBetween p text).map (List.map f) := by
  have split : (text.map f).splitOnP p = (text.splitOnP p).map (List.map f) := by
    induction text with
    | nil => rfl
    | cons c rest ih =>
      rw [List.map_cons, List.splitOnP_cons_eq_if_modifyHead, List.splitOnP_cons_eq_if_modifyHead,
        same, ih]
      split
      · rfl
      · cases rest.splitOnP p <;> rfl
  unfold partsBetween
  rw [split, List.filter_map]
  congr 2
  funext part
  simp

theorem beforeLast?_eq_some : beforeLast? last text = some inside ↔ text = inside ++ [last] := by
  unfold beforeLast?
  constructor
  · intro found
    split at found
    · rename_i ends
      obtain ⟨front, rfl⟩ := List.getLast?_eq_some_iff.mp ends
      rw [List.dropLast_concat] at found
      rw [Option.some.inj found]
    · cases found
  · rintro rfl
    rw [if_pos List.getLast?_concat, List.dropLast_concat]

end Text
end VectorPaint
