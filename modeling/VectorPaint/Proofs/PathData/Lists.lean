import Mathlib.Control.Monad.Basic
import VectorPaint.Proofs.PathData.Joined

/-!
Lists of numbers, one after the other. A separator ends every number, a good one and a bad one
alike, just as the end of the text does. So a list that is continued after a separator has its own
numbers first and then those of what follows, and a fault is where it was in the part that has it.
-/
namespace VectorPaint

namespace Decimal.Numeral

/-- No part of a number goes on here, not even one that lacks its digits. -/
def Parted (text : List Char) : Prop :=
  Ahead (fun c => c.isDigit = false ∧ c ∉ ['.', 'e', 'E', '+', '-']) text

variable {p : Char → Bool} {text more : List Char}

theorem takeWhile_append_of_ahead (stop : Ahead (p · = false) more) :
    (text ++ more).takeWhile p = text.takeWhile p := by
  induction text with
  | nil => exact stop.takeWhile_eq
  | cons c text ih => simp only [List.cons_append, List.takeWhile_cons, ih]

theorem dropWhile_append_of_ahead (stop : Ahead (p · = false) more) :
    (text ++ more).dropWhile p = text.dropWhile p ++ more := by
  induction text with
  | nil => exact stop.dropWhile_eq
  | cons c text ih =>
    simp only [List.cons_append, List.dropWhile_cons, ih]
    split <;> rfl

/-- What a text does not begin with, it does not begin with if it goes on with something else. -/
theorem ahead_append {c : Char} (missing : ∀ rest, text = c :: rest → False)
    (other : Ahead (· ≠ c) more) : Ahead (· ≠ c) (text ++ more) := by
  refine Ahead.append ?_ fun _ => other
  rintro _ rest same rfl
  exact missing rest same

namespace Parted

variable (parted : Parted more)
include parted

theorem digit : Ahead (·.isDigit = false) more := parted.mono fun _ mark => mark.1

theorem apart : Apart more :=
  parted.mono fun _ mark => ⟨mark.1, by grind⟩

theorem ne {c : Char} (mark : c ∈ ['.', 'e', 'E', '+', '-']) : Ahead (· ≠ c) more := by
  refine parted.mono fun other found => ?_
  rintro rfl
  exact found.2 mark

theorem takeSign_append :
    takeSign (text ++ more) = ((takeSign text).1, (takeSign text).2 ++ more) := by
  fun_cases takeSign text with
  | case1 => rfl
  | case2 => rfl
  | case3 text minus plus =>
    refine Numeral.takeSign_append .none fun c rest same => ⟨?_, ?_⟩
    · exact ahead_append minus (parted.ne (by simp)) c rest same
    · exact ahead_append plus (parted.ne (by simp)) c rest same

theorem takeFraction_append :
    takeFraction (text ++ more) = ((takeFraction text).1, (takeFraction text).2 ++ more) := by
  fun_cases takeFraction text with
  | case1 rest =>
    simp only [List.cons_append, takeFraction, takeWhile_append_of_ahead parted.digit,
      dropWhile_append_of_ahead parted.digit]
  | case2 text point =>
    have pointless := ahead_append point (parted.ne (by simp))
    unfold takeFraction
    split
    · rename_i same
      exact absurd rfl (pointless _ _ same)
    · rfl

theorem takeExponent_append : takeExponent (text ++ more) =
    (takeExponent text).map fun found => (found.1, found.2 ++ more) := by
  simp only [takeExponent, parted.takeSign_append, takeWhile_append_of_ahead parted.digit,
    dropWhile_append_of_ahead parted.digit]
  split
  · rfl
  · rfl

theorem takeOptionalExponent_append : takeOptionalExponent (text ++ more) =
    (takeOptionalExponent text).map fun found => (found.1, found.2 ++ more) := by
  fun_cases takeOptionalExponent text with
  | case1 rest => exact parted.takeExponent_append
  | case2 rest => exact parted.takeExponent_append
  | case3 text small large =>
    have small := ahead_append small (parted.ne (by simp))
    have large := ahead_append large (parted.ne (by simp))
    unfold takeOptionalExponent
    split
    · rename_i same
      exact absurd rfl (small _ _ same)
    · rename_i same
      exact absurd rfl (large _ _ same)
    · rfl

theorem read_append (text : List Char) : read (text ++ more) =
    (read text).map fun found => (found.1, found.2 ++ more) := by
  simp only [read, parted.takeSign_append, takeWhile_append_of_ahead parted.digit,
    dropWhile_append_of_ahead parted.digit, parted.takeFraction_append,
    parted.takeOptionalExponent_append]
  split
  · rfl
  · cases takeOptionalExponent (takeFraction ((takeSign text).2.dropWhile Char.isDigit)).2 with
    | none => rfl
    | some found => rfl

end Parted

end Decimal.Numeral

namespace PathData

open Decimal Numeral

/-- The same fault in a text that goes on. -/
def Fault.before (fault : Fault) (more : List Char) : Fault := ⟨fault.cause, fault.rest ++ more⟩

variable {text more gap rest : List Char} {fault : Fault} {x : Float} {xs ys : List Float}

theorem Separators.parted (separated : Separators gap) (some_gap : gap ≠ []) :
    Parted (gap ++ more) := by
  refine Ahead.append ?_ (absurd · some_gap)
  rintro c rest rfl
  have mark := separated c List.mem_cons_self
  simp only [List.mem_cons, List.not_mem_nil, or_false] at mark
  rcases mark with rfl | rfl | rfl | rfl | rfl | rfl <;> decide

theorem Separators.skipSeparators_append (separated : Separators gap) (text : List Char) :
    skipSeparators (gap ++ text) = skipSeparators text := by
  rw [skipSeparators, List.dropWhile_append_of_pos (separators_iff.mp separated)]
  rfl

section Number

/-- The result of reading depends on what comes after the separators. -/
theorem number_of_same (same : skipSeparators text = skipSeparators more) :
    number text = number more := by
  simp only [number_apply, same]

theorem skipSeparators_ne_nil_of_number (done : number text = .ok (x, rest)) :
    skipSeparators text ≠ [] := by
  intro empty
  simp [number_apply, empty] at done

theorem number_append_of_ok (parted : Parted more) (done : number text = .ok (x, rest)) :
    number (text ++ more) = .ok (x, rest ++ more) :=
  number_extends parted.apart done

/-- A word that is no number is none before a separator either. -/
theorem number_append_of_error (parted : Parted more) (some_text : skipSeparators text ≠ [])
    (failed : number text = .error fault) : number (text ++ more) = .error (fault.before more) := by
  simp only [number_apply] at failed ⊢
  split at failed
  · rename_i empty
    exact absurd empty some_text
  · rename_i c tail found
    have extended := parted.read_append (c :: tail)
    rw [List.cons_append] at extended
    rw [skipSeparators_append_of_cons found]
    rw [found] at failed
    split at failed
    · rename_i taken
      cases failed
      simp only [extended, taken, Except.map]
      rfl
    · rename_i taken
      cases failed
      simp only [extended, taken, Except.map]
      rfl
    · rename_i taken
      split at failed
      · cases failed
      · rename_i finite
        cases failed
        simp only [extended, taken, Except.map, finite]
        rfl

end Number

section NumberList

theorem numberList_of_nil (none : skipSeparators text = []) : numberList text = .ok [] := by
  unfold numberList
  split
  · rfl
  · rename_i found
    rw [none] at found
    cases found

theorem numberList_of_error (some_text : skipSeparators text ≠ [])
    (failed : number text = .error fault) : numberList text = .error fault := by
  unfold numberList
  split
  · rename_i empty
    exact absurd empty some_text
  · split
    · rename_i failed'
      rw [failed] at failed'
      cases failed'
      rfl
    · rename_i done
      rw [failed] at done
      cases done

theorem numberList_of_ok (done : number text = .ok (x, rest)) :
    numberList text = (numberList rest).map (x :: ·) := by
  rw [numberList]
  split
  · rename_i empty
    exact absurd empty (skipSeparators_ne_nil_of_number done)
  · split
    · rename_i failed
      rw [done] at failed
      cases failed
    · rename_i done'
      rw [done] at done'
      cases done'
      cases numberList rest with
      | error fault => rfl
      | ok xs => rfl

theorem numberList_of_same (same : skipSeparators text = skipSeparators more) :
    numberList text = numberList more := by
  by_cases empty : skipSeparators more = []
  · rw [numberList_of_nil (same.trans empty), numberList_of_nil empty]
  · match found : number more with
    | .error fault =>
      rw [numberList_of_error empty found,
        numberList_of_error (same ▸ empty) ((number_of_same same).trans found)]
    | .ok (x, rest) =>
      rw [numberList_of_ok found, numberList_of_ok ((number_of_same same).trans found)]

/-- The numbers of a text that goes on. -/
theorem numberList_append (text : List Char) (parted : Parted more) : numberList (text ++ more) =
    match numberList text with
    | .error fault => .error (fault.before more)
    | .ok xs => (numberList more).map (xs ++ ·) := by
  fun_induction numberList text with
  | case1 text empty =>
    rw [numberList_of_same (skipSeparators_append_of_nil empty)]
    cases numberList more with
    | error fault => rfl
    | ok xs => rfl
  | case2 text c tail found fault failed =>
    have extended : skipSeparators (text ++ more) = c :: (tail ++ more) :=
      skipSeparators_append_of_cons found
    exact numberList_of_error (by simp [extended])
      (number_append_of_error parted (by simp [found]) failed)
  | case3 text c tail found value rest read fault failed ih =>
    rw [numberList_of_ok (number_append_of_ok parted read), ih, failed]
    rfl
  | case4 text c tail found value rest read xs later ih =>
    rw [numberList_of_ok (number_append_of_ok parted read), ih, later]
    cases numberList more with
    | error fault => rfl
    | ok xs => rfl

/-- The place of a fault in a list is a place in the text. -/
theorem suffix_of_numberList (failed : numberList text = .error fault) : fault.rest <:+ text := by
  fun_induction numberList text with
  | case1 => cases failed
  | case2 text c tail found other bad =>
    cases failed
    exact number_within.fault bad
  | case3 text c tail found value rest read other bad ih =>
    cases failed
    exact (ih bad).trans (number_within.rest read)
  | case4 => cases failed

end NumberList

section Numbers

variable {first second : String} {error : Error}

theorem toError_before (fault : Fault) (text more : List Char) :
    (fault.before more).toError (text ++ more) = fault.toError text := by
  simp only [Fault.toError, Fault.before, Text.byteCount_append]
  congr 1
  omega

/-- The numbers of a list that goes on after a gap. -/
theorem numbers_append (first gap second : String) (separated : Separators gap.toList)
    (some_gap : gap ≠ "") :
    numbers (first ++ gap ++ second) =
      match numbers first with
      | .error error => .error error
      | .ok xs => match numbers second with
        | .error error => .error (error.after (first.utf8ByteSize + gap.utf8ByteSize))
        | .ok ys => .ok (xs ++ ys) := by
  have parted : Parted (gap.toList ++ second.toList) :=
    separated.parted (by simpa using some_gap)
  have joined := numberList_append first.toList parted
  have skipped : numberList (gap.toList ++ second.toList) = numberList second.toList :=
    numberList_of_same (separated.skipSeparators_append _)
  simp only [numbers, String.toList_append, List.append_assoc, joined]
  cases numberList first.toList with
  | error fault => simp only [Except.mapError, toError_before]
  | ok xs =>
    rw [skipped]
    cases failed : numberList second.toList with
    | error fault =>
      have placed := toError_append (first ++ gap) (suffix_of_numberList failed)
      simp only [String.toList_append, List.append_assoc, String.utf8ByteSize_append] at placed
      simp only [Except.mapError, Except.map, placed]
    | ok ys => rfl

/-- After a separator a list goes on with the numbers of another text. If the first text has an
error, then that one stays; an error of the second shows as many bytes later as the first text and
the separator have. More separators make no difference to the numbers, so a list can be split,
joined and spaced anew wherever it has some. -/
theorem numbers_joined (first second : String) {c : Char}
    (separates : c ∈ [' ', '\t', '\r', '\n', '\x0c', ',']) :
    (∀ error, numbers first = .error error →
      numbers (first ++ c.toString ++ second) = .error error) ∧
    (∀ xs ys, numbers first = .ok xs → numbers second = .ok ys →
      numbers (first ++ c.toString ++ second) = .ok (xs ++ ys)) ∧
    (∀ xs error, numbers first = .ok xs → numbers second = .error error →
      numbers (first ++ c.toString ++ second) =
        .error ⟨first.utf8ByteSize + 1 + error.offset, error.cause⟩) ∧
    ∀ gap : String, Separators gap.toList → gap ≠ "" → ∀ zs,
      numbers (first ++ gap ++ second) = .ok zs ↔
        ∃ xs ys, numbers first = .ok xs ∧ numbers second = .ok ys ∧ zs = xs ++ ys := by
  have separated : Separators c.toString.toList := by
    simpa [Separators] using separates
  have size : c.toString.utf8ByteSize = 1 := by
    simp only [List.mem_cons, List.not_mem_nil, or_false] at separates
    rcases separates with rfl | rfl | rfl | rfl | rfl | rfl <;> rfl
  have some_gap : c.toString ≠ "" := by
    intro empty
    rw [empty] at size
    cases size
  have joined := numbers_append first c.toString second separated some_gap
  refine ⟨?_, ?_, ?_, ?_⟩
  · intro error failed
    rw [joined, failed]
  · intro xs ys read read'
    rw [joined, read, read']
  · intro xs error read failed
    rw [joined, read, failed, size]
    rfl
  · intro gap separated some_gap zs
    rw [numbers_append _ gap _ separated some_gap]
    cases numbers first with
    | error error => simp
    | ok xs =>
      cases numbers second with
      | error error => simp
      | ok ys => simp [eq_comm]

/-- Numbers with nothing between them that would not end them. -/
def shortList : String := "+1.-.5 2e1"

/-- The last word lacks the digits of its exponent. -/
def brokenList : String := ", 7 3e-"

theorem numbers_shortList :
    numbers shortList = .ok [1, -0.5, 20] ∧ numbers brokenList = .error ⟨4, .malformedExponent⟩ ∧
      numbers (shortList ++ "," ++ shortList) = .ok [1, -0.5, 20, 1, -0.5, 20] ∧
      numbers (shortList ++ "\n" ++ brokenList) = .error ⟨15, .malformedExponent⟩ ∧
      numbers (brokenList ++ "\n" ++ shortList) = .error ⟨4, .malformedExponent⟩ := by
  have short : numbers shortList = .ok [1, -0.5, 20] := by decide +kernel
  have broken : numbers brokenList = .error ⟨4, .malformedExponent⟩ := by decide +kernel
  refine ⟨short, broken, ?_, ?_, ?_⟩
  · exact (numbers_joined (c := ',') shortList shortList (by decide)).2.1 _ _ short short
  · exact (numbers_joined (c := '\n') shortList brokenList (by decide)).2.2.1 _ _ short broken
  · exact (numbers_joined (c := '\n') brokenList shortList (by decide)).1 _ broken

end Numbers

end PathData
end VectorPaint
