import Mathlib.Logic.Function.Iterate
import VectorPaint.Proofs.PathData.Commands
import VectorPaint.Proofs.PathData.Faults
import VectorPaint.Proofs.PathData.Lists

/-!
Reading path data one command at a time. Each command that is read takes something from the text, so
there are no more of them than bytes. What comes last is the end of the text or an error, and an
error is at the first place that is not as it should be, behind everything that was read before it.
-/
namespace VectorPaint

open Decimal Numeral

namespace Text

theorem byteCount_lt_of_suffix {text rest : List Char} (ends : rest <:+ text)
    (shorter : rest.length < text.length) : byteCount rest < byteCount text := by
  obtain ⟨front, rfl⟩ := ends
  cases front with
  | nil => exact absurd shorter (Nat.lt_irrefl _)
  | cons c front =>
    have size := c.utf8Size_pos
    rw [List.cons_append, ← List.singleton_append, byteCount_append, byteCount_append]
    simp only [byteCount, List.foldl_cons, List.foldl_nil]
    omega

theorem length_le_byteCount (text : List Char) : text.length ≤ byteCount text := by
  induction text with
  | nil => exact Nat.le_refl 0
  | cons c text ih =>
    have size := c.utf8Size_pos
    rw [← List.singleton_append, byteCount_append, List.length_append]
    simp only [byteCount, List.foldl_cons, List.foldl_nil, List.length_singleton] at ih ⊢
    omega

/-- A place in a text, between two characters or at an end of it: the number of bytes in front of it
and what is behind it. -/
structure Place (text : String) (offset : Nat) (rest : List Char) : Prop where
  parts : ∃ front, text.toList = front ++ rest ∧ offset = byteCount front
  boundary : String.Pos.Raw.IsValid text ⟨offset⟩
  within : offset ≤ text.utf8ByteSize

theorem place_of_suffix {text : String} {rest : List Char} (ends : rest <:+ text.toList) :
    Place text (byteCount text.toList - byteCount rest) rest := by
  obtain ⟨front, parts⟩ := ends
  have offset : byteCount text.toList - byteCount rest = byteCount front := by
    rw [← parts, byteCount_append]
    omega
  have whole : text = String.ofList front ++ String.ofList rest := by
    rw [← String.ofList_append, parts, String.ofList_toList]
  have bytes : byteCount front = (String.ofList front).utf8ByteSize := by
    rw [← byteCount_toList, String.toList_ofList]
  refine ⟨⟨front, parts.symm, offset⟩, ?_, ?_⟩
  · have valid : String.Pos.Raw.IsValid (String.ofList front ++ String.ofList rest) _ :=
      String.Pos.Raw.isValid_rawEndPos.append_right _
    rwa [← whole, String.rawEndPos, ← bytes, ← offset] at valid
  · rw [← byteCount_toList]
    exact Nat.sub_le _ _

end Text

namespace PathData

/-- A reader of commands between two calls: the text, what is left of it, what is known of the
commands before, and whether there was an error. -/
structure Reading where
  text : String
  rest : List Char
  previous : Option Letter
  context : Context Float
  failed : Bool

namespace Reading

def start (text : String) : Reading := ⟨text, text.toList, none, Context.initial, false⟩

/-- How many bytes were read. -/
def offset (reading : Reading) : Nat :=
  Text.byteCount reading.text.toList - Text.byteCount reading.rest

/-- The next command, or an error, and the reader after it. After an error there is nothing more. -/
def next (reading : Reading) : Option (Except Error (Command Float)) × Reading :=
  if reading.failed then (none, reading)
  else
    match next? reading.previous reading.rest with
    | .error fault =>
      (some (.error (fault.toError reading.text.toList)), { reading with failed := true })
    | .ok none => (none, reading)
    | .ok (some step) =>
      let command := reading.context.resolve step.group
      (some (.ok command),
        { reading with
          rest := step.rest
          previous := some step.letter
          context := reading.context.after command })

/-- All that is still to come. -/
def items (reading : Reading) : List (Except Error (Command Float)) :=
  if reading.failed then []
  else
    let (groups, fault) := groups reading.previous reading.rest
    (resolveAll reading.context groups).map .ok ++
      (fault.map (·.toError reading.text.toList)).toList.map .error

variable {reading : Reading} {command : Command Float} {error : Error}

/-- What one call can do: give nothing, give an error, or give a command and go on after it. -/
inductive Call (reading : Reading) : Prop where
  | done : reading.items = [] → reading.next = (none, reading) → Call reading
  | error {fault : Fault} : reading.failed = false →
      next? reading.previous reading.rest = .error fault →
      reading.next = (some (.error (fault.toError reading.text.toList)),
        { reading with failed := true }) → Call reading
  | command {step : Step} : reading.failed = false →
      next? reading.previous reading.rest = .ok (some step) →
      reading.next = (some (.ok (reading.context.resolve step.group)),
        ⟨reading.text, step.rest, some step.letter,
          reading.context.after (reading.context.resolve step.group), false⟩) → Call reading

theorem call (reading : Reading) : Call reading := by
  by_cases failed : reading.failed = true
  · exact .done (by simp [items, failed]) (by simp [next, failed])
  · match found : next? reading.previous reading.rest with
    | .error fault =>
      exact .error (by simpa using failed) found (by simp [next, failed, found])
    | .ok none =>
      exact .done (by simp [items, failed, groups_of_none found, resolveAll])
        (by simp [next, failed, found])
    | .ok (some step) =>
      exact .command (by simpa using failed) found (by simp [next, failed, found])

/-- A call takes the first of what is to come. -/
theorem next_eq (reading : Reading) :
    reading.next.1 = reading.items.head? ∧ reading.next.2.items = reading.items.tail := by
  cases reading.call with
  | done none same => simp [none, same]
  | error going found same => simp [same, items, going, groups_of_error found, resolveAll]
  | command going found same => simp [same, items, going, groups_of_some found, resolveAll]

/-- The reader after some calls. -/
def after (reading : Reading) (calls : Nat) : Reading :=
  (fun reading => reading.next.2)^[calls] reading

theorem after_succ (reading : Reading) (calls : Nat) :
    reading.after (calls + 1) = (reading.after calls).next.2 :=
  Function.iterate_succ_apply' _ _ _

theorem items_after (reading : Reading) (calls : Nat) :
    (reading.after calls).items = reading.items.drop calls := by
  induction calls with
  | zero => rfl
  | succ calls ih => rw [after_succ, (next_eq _).2, ih, List.tail_drop]

/-- The calls give what is to come, one after the other, and then nothing. -/
theorem next_after (reading : Reading) (calls : Nat) :
    (reading.after calls).next.1 = reading.items[calls]? := by
  rw [(next_eq _).1, items_after, List.head?_drop]

theorem text_after (reading : Reading) (calls : Nat) :
    (reading.after calls).text = reading.text := by
  induction calls with
  | zero => rfl
  | succ calls ih =>
    rw [after_succ, ← ih]
    cases (reading.after calls).call with
    | done none same => rw [same]
    | error going found same => rw [same]
    | command going found same => rw [same]

theorem suffix_next (reading : Reading) : reading.next.2.rest <:+ reading.rest := by
  cases reading.call with
  | done none same => simp only [same, List.suffix_rfl]
  | error going found same => simp only [same, List.suffix_rfl]
  | command going found same =>
    rw [same]
    exact suffix_of_next? found

theorem suffix_after (reading : Reading) (calls : Nat) :
    (reading.after calls).rest <:+ reading.rest := by
  induction calls with
  | zero => exact List.suffix_rfl
  | succ calls ih =>
    rw [after_succ]
    exact (suffix_next _).trans ih

/-- A call that gives a command takes something from the text. -/
theorem byteCount_next (yields : reading.next.1 = some (.ok command)) :
    Text.byteCount reading.next.2.rest < Text.byteCount reading.rest := by
  cases reading.call with
  | done none same =>
    rw [same] at yields
    cases yields
  | error going found same =>
    rw [same] at yields
    cases yields
  | command going found same =>
    rw [same]
    exact Text.byteCount_lt_of_suffix (suffix_of_next? found) (length_lt_of_next? found)

/-- A call that gives an error finds that no group begins where it is. -/
theorem stuck_of_next (yields : reading.next.1 = some (.error error)) :
    ∃ place, place <:+ reading.rest ∧ Stuck reading.previous reading.rest error.cause place ∧
      error.offset = Text.byteCount reading.text.toList - Text.byteCount place := by
  cases reading.call with
  | done none same =>
    rw [same] at yields
    cases yields
  | @error fault going found same =>
    rw [same] at yields
    cases yields
    exact ⟨fault.rest, suffix_of_next?_error found, stuck_of_next? found, rfl⟩
  | command going found same =>
    rw [same] at yields
    cases yields

theorem items_start (text : String) : (start text).items =
    (commands text).1.map .ok ++ (commands text).2.toList.map .error := by
  simp [items, start, commands]

/-- The calls of a reader give the commands of the text, then its error, and then nothing. -/
theorem next_after_start (text : String) (calls : Nat) : ((start text).after calls).next.1 =
    ((commands text).1.map .ok ++ (commands text).2.toList.map .error)[calls]? := by
  rw [next_after, items_start]

theorem place_after (text : String) (calls : Nat) :
    Text.Place text ((start text).after calls).offset ((start text).after calls).rest := by
  have same_text : ((start text).after calls).text = text := text_after _ calls
  rw [offset, same_text]
  exact Text.place_of_suffix (suffix_after _ calls)

theorem offset_lt_of_next {text : String} {calls : Nat}
    (yields : ((start text).after calls).next.1 = some (.ok command)) :
    ((start text).after calls).offset < ((start text).after (calls + 1)).offset := by
  have taken := byteCount_next yields
  have within := Text.byteCount_le_of_suffix (suffix_after (start text) calls)
  have same_text (calls : Nat) : ((start text).after calls).text = text := text_after _ calls
  rw [← after_succ] at taken
  simp only [offset, same_text]
  change Text.byteCount _ ≤ Text.byteCount text.toList at within
  omega

/-- The error of a text is not before the end of the last command, where no group begins. -/
theorem exists_stuck_of_commands {text : String} (failed : (commands text).2 = some error) :
    ∃ place last, last = (start text).after (commands text).1.length ∧
      Text.Place text error.offset place ∧ last.offset ≤ error.offset ∧
      Stuck last.previous last.rest error.cause place := by
  have yields := next_after_start text (commands text).1.length
  rw [failed, List.getElem?_append_right (by simp)] at yields
  simp only [List.length_map, Nat.sub_self] at yields
  obtain ⟨place, ends, stuck, placed⟩ := stuck_of_next yields
  have behind := Text.byteCount_le_of_suffix ends
  have same_text : ((start text).after (commands text).1.length).text = text := text_after ..
  rw [same_text] at placed
  refine ⟨place, _, rfl, ?_, ?_, stuck⟩
  · rw [placed]
    exact Text.place_of_suffix (ends.trans (suffix_after _ _))
  · rw [placed, offset, same_text]
    omega

end Reading

theorem length_groups_le (previous : Option Letter) (text : List Char) :
    (groups previous text).1.length ≤ text.length := by
  fun_induction groups previous text with
  | case1 => exact Nat.zero_le _
  | case2 => exact Nat.zero_le _
  | case3 previous text step found rest fault tail ih =>
    have shorter := length_lt_of_next? found
    rw [tail] at ih
    simp only [List.length_cons] at ih ⊢
    omega

/-- A list fails to be read at a word behind some numbers, but not at the end of the text. -/
theorem stuck_of_numberList {text : List Char} {fault : Fault}
    (failed : numberList text = .error fault) :
    ∃ count middle, Words (List.replicate count .number) text middle ∧
      AfterGap middle fault.rest ∧ Malformed .number fault.cause fault.rest ∧ fault.rest ≠ [] := by
  fun_induction numberList text with
  | case1 => cases failed
  | case2 text c tail found other bad =>
    cases failed
    obtain ⟨same, malformed⟩ := malformed_of_number bad
    refine ⟨0, text, .nil, same ▸ afterGap_skipSeparators text, malformed, ?_⟩
    simp [same, found]
  | case3 text c tail found value rest read other bad ih =>
    cases failed
    obtain ⟨count, middle, words, placed⟩ := ih bad
    have taken : operand .number text = .ok (.number value, rest) :=
      Reader.map_eq_ok.mpr ⟨value, read, rfl⟩
    exact ⟨count + 1, middle, words_cons taken words, placed⟩
  | case4 => cases failed

theorem AfterGap.byteCount_le {text place : List Char} (gap : AfterGap text place) :
    Text.byteCount place ≤ Text.byteCount text := by
  obtain ⟨⟨front, rfl, -⟩, -⟩ := gap
  exact Text.byteCount_le_of_suffix (List.suffix_append ..)

/-- The calls of a reader give the commands of the text, then its error if it has one, and then
nothing. With each command the reader goes on in the text and not past its end, so there are no more
commands than bytes. An error is not before the end of the last command: it is at the first place
behind it that is not as it should be, which is the end of the text just if something is missing
there. The error of a list of numbers is at the first word that is no number, and never at the end
of the text. -/
theorem reading_progress (text : String) :
    (∀ calls, ((Reading.start text).after calls).next.1 =
      ((commands text).1.map .ok ++ (commands text).2.toList.map .error)[calls]?) ∧
    (∀ calls command, ((Reading.start text).after calls).next.1 = some (.ok command) →
      ((Reading.start text).after calls).offset < ((Reading.start text).after (calls + 1)).offset ∧
        ((Reading.start text).after (calls + 1)).offset ≤ text.utf8ByteSize) ∧
    (commands text).1.length ≤ text.utf8ByteSize ∧
    (∀ error, (commands text).2 = some error →
      ∃ place, Text.Place text error.offset place ∧
        (place = [] ↔ error.cause = .numberMissing ∨ error.cause = .flagMissing) ∧
        ∃ last, last = (Reading.start text).after (commands text).1.length ∧
          Text.Place text last.offset last.rest ∧ last.offset ≤ error.offset ∧
          Stuck last.previous last.rest error.cause place) ∧
    ∀ error, numbers text = .error error →
      ∃ place, Text.Place text error.offset place ∧ place ≠ [] ∧
        Malformed .number error.cause place ∧
        ∃ count offset rest, Words (List.replicate count .number) text.toList rest ∧
          Text.Place text offset rest ∧ offset ≤ error.offset ∧ AfterGap rest place := by
  refine ⟨Reading.next_after_start text, ?_, ?_, ?_, ?_⟩
  · intro calls command yields
    exact ⟨Reading.offset_lt_of_next yields, (Reading.place_after text (calls + 1)).within⟩
  · have groups_le := length_groups_le none text.toList
    have bytes_le := Text.length_le_byteCount text.toList
    rw [commands_fst, length_resolveAll]
    rw [Text.byteCount_toList] at bytes_le
    exact Nat.le_trans groups_le bytes_le
  · intro error failed
    obtain ⟨place, last, same, placed, behind, stuck⟩ := Reading.exists_stuck_of_commands failed
    refine ⟨place, placed, stuck.eq_nil_iff, last, same, ?_, behind, stuck⟩
    rw [same]
    exact Reading.place_after ..
  · intro error failed
    cases failed' : numberList text.toList with
    | ok xs =>
      rw [numbers, failed'] at failed
      cases failed
    | error fault =>
      rw [numbers, failed'] at failed
      cases failed
      obtain ⟨count, rest, words, gap, malformed, some_text⟩ := stuck_of_numberList failed'
      refine ⟨fault.rest, Text.place_of_suffix (suffix_of_numberList failed'), some_text, malformed,
        count, _, rest, words, Text.place_of_suffix words.suffix, ?_, gap⟩
      have behind := gap.byteCount_le
      simp only [Fault.toError]
      omega

end PathData
end VectorPaint
