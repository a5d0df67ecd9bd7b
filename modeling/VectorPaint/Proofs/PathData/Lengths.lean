import Mathlib.Control.Monad.Basic
import Mathlib.Data.List.TakeWhile
import VectorPaint.PathData.Command
import VectorPaint.Proofs.PathData.Faults

/-!
Lengths. Blanks around a length are removed before it is read, so the place of an error is counted
from the first character that is left. In the text itself it is later by the blanks in front.
-/
namespace VectorPaint

open Decimal Numeral

namespace Text

/-- A text is made of blanks, of what is between them, and of blanks again. -/
structure Trimmed (text lead middle trail : List Char) : Prop where
  parts : text = lead ++ (middle ++ trail)
  lead : ∀ c ∈ lead, isBlank c = true
  trail : ∀ c ∈ trail, isBlank c = true
  first : Ahead (isBlank · = false) middle
  last : Ahead (isBlank · = false) middle.reverse

variable {text lead middle trail : List Char}

theorem Trimmed.trim_eq (trimmed : Trimmed text lead middle trail) : trim text = middle := by
  have from_end : (trail.reverse ++ middle.reverse).dropWhile isBlank = middle.reverse :=
    dropWhile_block (by simpa using trimmed.trail) trimmed.last
  rw [trim, trimmed.parts]
  have first := trimmed.first
  cases middle with
  | nil =>
    have all : ∀ c ∈ lead ++ trail, isBlank c = true := by
      simpa [or_imp, forall_and] using ⟨trimmed.lead, trimmed.trail⟩
    have none_left : (lead ++ trail).dropWhile isBlank = [] := List.dropWhile_eq_nil_iff.mpr all
    rw [List.nil_append, none_left]
    rfl
  | cons c middle =>
    have begins : Ahead (isBlank · = false) (c :: middle ++ trail) := first.append nofun
    rw [dropWhile_block trimmed.lead begins, List.reverse_append, from_end, List.reverse_reverse]

theorem exists_trimmed (text : List Char) :
    ∃ lead trail, Trimmed text lead (trim text) trail := by
  have body := List.takeWhile_append_dropWhile (p := isBlank) (l := text)
  have tail := List.takeWhile_append_dropWhile (p := isBlank)
    (l := (text.dropWhile isBlank).reverse)
  have parts := congrArg List.reverse tail
  rw [List.reverse_append, List.reverse_reverse] at parts
  have begins := ahead_dropWhile isBlank text
  refine ⟨text.takeWhile isBlank, ((text.dropWhile isBlank).reverse.takeWhile isBlank).reverse,
    ?_, ?_, ?_, ?_, ?_⟩
  · rw [trim, parts, body]
  · exact List.all_eq_true.mp List.all_takeWhile
  · simpa using List.all_eq_true.mp List.all_takeWhile
  · rw [← parts] at begins
    exact begins.of_append
  · rw [trim, List.reverse_reverse]
    exact ahead_dropWhile isBlank _

end Text

namespace PathData

/-- A number, after separators if there are any, and either nothing more or the unit of pixels. -/
inductive LengthSpelled (x : Float) : List Char → Prop where
  | spelled {gap body rest : List Char} : Separators gap → Token .number (.number x) body rest →
      rest = [] ∨ rest = ['p', 'x'] → LengthSpelled x (gap ++ body)

/-- Something is wrong at this place in a length: there is no number, or something other than the
unit is behind the number. -/
inductive Offends : Cause → List Char → List Char → Prop where
  | number {cause : Cause} {gap place : List Char} : Separators gap →
      Ahead (isSeparator · = false) place → Malformed .number cause place → Offends cause gap place
  | trailing {gap word place : List Char} : Separators gap → Word .number word (word ++ place) →
      place ≠ [] → place ≠ ['p', 'x'] → Offends .trailingCharacters (gap ++ word) place

variable {text rest lead middle trail : List Char} {x : Float} {fault : Fault}

theorem trimmedLength_eq_ok : trimmedLength text = .ok x ↔ LengthSpelled x text := by
  constructor
  · intro done
    unfold trimmedLength at done
    split at done
    · cases done
    · rename_i value rest read
      split at done
      · rename_i unit
        cases done
        have clear : Clear rest := by
          rcases unit with rfl | rfl
          · exact ahead_nil
          · exact ahead_cons.mpr (by decide)
        have taken : operand .number text = .ok (.number x, rest) :=
          Reader.map_eq_ok.mpr ⟨x, read, rfl⟩
        have token := token_of_operand taken clear
        obtain ⟨gap, parts, separated⟩ := skipSeparators_spelled text
        rw [parts]
        exact .spelled separated token unit
      · cases done
  · rintro ⟨separated, token, unit⟩
    have taken := operand_of_token token separated
    obtain ⟨y, read, same⟩ := Reader.map_eq_ok.mp taken
    cases same
    simp only [trimmedLength, read, unit, if_true]

theorem offends_of_trimmedLength (failed : trimmedLength text = .error fault) :
    ∃ front, text = front ++ fault.rest ∧ Offends fault.cause front fault.rest := by
  obtain ⟨gap, parts, separated⟩ := skipSeparators_spelled text
  unfold trimmedLength at failed
  split at failed
  · rename_i failed'
    cases failed
    obtain ⟨same, malformed⟩ := malformed_of_number failed'
    rw [← same] at parts
    refine ⟨gap, parts, .number separated ?_ malformed⟩
    rw [same]
    exact ahead_dropWhile isSeparator text
  · rename_i value rest read
    split at failed
    · cases failed
    · rename_i unit
      cases failed
      obtain ⟨word, spaced, spelled⟩ := word_of_number read
      rw [spaced, ← List.append_assoc] at parts
      exact ⟨gap ++ word, parts, .trailing separated spelled (unit ∘ .inl) (unit ∘ .inr)⟩

/-- A length is accepted just if the text between the blanks around it is a number with an optional
unit, and its value is that number. The error of any other text is at the first place where that
text is not so: where the number should be, or behind it. Its offset is the number of bytes in front
of that place, without those of the blanks. -/
theorem length_decided (text : String) :
    (∃ lead middle trail, Text.Trimmed text.toList lead middle trail) ∧
    ∀ lead middle trail, Text.Trimmed text.toList lead middle trail →
      (∀ x, length text = .ok x ↔ LengthSpelled x middle) ∧
      ∀ error, length text = .error error →
        ∃ front place, text.toList = (lead ++ front) ++ (place ++ trail) ∧
          Offends error.cause front place ∧ error.offset = Text.byteCount front ∧
          Text.byteCount (lead ++ front) = Text.byteCount lead + error.offset := by
  constructor
  · obtain ⟨lead, trail, trimmed⟩ := Text.exists_trimmed text.toList
    exact ⟨lead, _, trail, trimmed⟩
  · intro lead middle trail trimmed
    simp only [length, trimmed.trim_eq]
    constructor
    · intro x
      rw [← trimmedLength_eq_ok]
      cases trimmedLength middle with
      | error fault => exact ⟨nofun, nofun⟩
      | ok y => simp [Except.mapError]
    · intro error failed
      cases failed' : trimmedLength middle with
      | ok y =>
        rw [failed'] at failed
        cases failed
      | error fault =>
        rw [failed'] at failed
        cases failed
        obtain ⟨front, parts, offends⟩ := offends_of_trimmedLength failed'
        have offset : Text.byteCount middle - Text.byteCount fault.rest =
            Text.byteCount front := by
          rw [parts, Text.byteCount_append]
          omega
        refine ⟨front, fault.rest, ?_, offends, offset, ?_⟩
        · have whole := trimmed.parts
          rw [parts] at whole
          simpa only [List.append_assoc] using whole
        · simp only [Text.byteCount_append, Fault.toError, offset]

/-- Two spaces and a word that is no number. -/
def spacedWord : String := "  abc"

theorem length_spacedWord :
    length " 3px\n" = .ok 3 ∧ LengthSpelled 3 ['3', 'p', 'x'] ∧
      ∃ front place, spacedWord.toList = ([' ', ' '] ++ front) ++ (place ++ []) ∧
        Offends .numberExpected front place ∧ 0 = Text.byteCount front ∧
        Text.byteCount ([' ', ' '] ++ front) = Text.byteCount [' ', ' '] + 0 := by
  have accepted : length " 3px\n" = .ok 3 := by decide +kernel
  have failed : length spacedWord = .error ⟨0, .numberExpected⟩ := by decide +kernel
  have trimmed : Text.Trimmed " 3px\n".toList [' '] ['3', 'p', 'x'] ['\n'] :=
    ⟨rfl, List.all_eq_true.mp rfl, List.all_eq_true.mp rfl, ahead_cons.mpr rfl,
      ahead_cons.mpr rfl⟩
  have trimmed' : Text.Trimmed spacedWord.toList [' ', ' '] ['a', 'b', 'c'] [] :=
    ⟨rfl, List.all_eq_true.mp rfl, List.all_eq_true.mp rfl, ahead_cons.mpr rfl,
      ahead_cons.mpr rfl⟩
  have ⟨spelled, _⟩ := (length_decided _).2 _ _ _ trimmed
  have ⟨_, offends⟩ := (length_decided _).2 _ _ _ trimmed'
  exact ⟨accepted, (spelled 3).mp accepted, offends _ failed⟩

/-- The error of a length is not at its place in the text if there are blanks in front: here it is
said to be at the first of them. -/
theorem length_offset_spacedWord :
    ¬ ∀ (text : String) (offset : Nat), length text = .error ⟨offset, .numberExpected⟩ →
      ∃ front place, text.toList = front ++ place ∧ offset = Text.byteCount front ∧
        Ahead (isSeparator · = false) place ∧ Malformed .number .numberExpected place := by
  intro placed
  have failed : length spacedWord = .error ⟨0, .numberExpected⟩ := by decide +kernel
  obtain ⟨front, place, parts, offset, stop, -⟩ := placed _ _ failed
  cases front with
  | nil =>
    rw [List.nil_append] at parts
    rw [← parts] at stop
    exact absurd (ahead_cons.mp stop) (by decide)
  | cons c front =>
    have size := c.utf8Size_pos
    have first : Text.byteCount [c] = c.utf8Size := by simp [Text.byteCount]
    rw [← List.singleton_append, Text.byteCount_append] at offset
    omega

end PathData
end VectorPaint
