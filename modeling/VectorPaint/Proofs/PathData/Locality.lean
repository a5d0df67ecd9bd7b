import VectorPaint.Proofs.PathData.Clauses

/-!
Reading is local. A reader that takes a piece from the front of a text takes the same piece if the
text goes on, as long as what is added does not continue a number. What a reader leaves is an end of
its text, and so is the text from a fault on, so a fault can be placed by counting from the end.
-/
namespace VectorPaint

namespace Decimal.Numeral

/-- A number that ends here would not be continued by the text. -/
def Apart (text : List Char) : Prop :=
  Ahead (fun c => c.isDigit = false ∧ c ≠ '.' ∧ c ≠ 'e' ∧ c ≠ 'E') text

theorem Ahead.mono {holds holds' : Char → Prop} {text : List Char} (ahead : Ahead holds text)
    (imp : ∀ c, holds c → holds' c) : Ahead holds' text :=
  fun c rest same => imp c (ahead c rest same)

variable {point power text rest more : List Char} {n : Numeral}

theorem Stops.append (stops : Stops point power rest) (apart : Apart more) :
    Stops point power (rest ++ more) where
  digit := stops.digit.append fun _ => apart.mono fun _ mark => mark.1
  exponent none := (stops.exponent none).append fun _ => apart.mono fun _ mark => mark.2.2
  fraction none none' := (stops.fraction none none').append fun _ =>
    apart.mono fun _ mark => mark.2.1

theorem read_append (done : read text = .ok (n, rest)) (apart : Apart more) :
    read (text ++ more) = .ok (n, rest ++ more) := by
  obtain ⟨sign, point, power, rfl, signed, all, fractional, some_digit, raised, stops⟩ :=
    parts_of_read done
  simpa only [List.append_assoc] using
    read_of_parts signed all fractional some_digit raised (stops.append apart)

end Decimal.Numeral

namespace Text

private theorem foldl_utf8Size (count : Nat) (text : List Char) :
    text.foldl (fun count c => count + c.utf8Size) count = count + byteCount text := by
  induction text generalizing count with
  | nil => rfl
  | cons c text ih =>
    rw [byteCount, List.foldl_cons, List.foldl_cons, ih, ih]
    omega

theorem byteCount_append (first second : List Char) :
    byteCount (first ++ second) = byteCount first + byteCount second := by
  rw [byteCount, List.foldl_append, foldl_utf8Size]
  rfl

theorem byteCount_toList (text : String) : byteCount text.toList = text.utf8ByteSize := by
  rw [← String.ofList_toList (s := text), String.toList_ofList]
  induction text.toList with
  | nil => rfl
  | cons c rest ih =>
    rw [String.ofList_cons, String.utf8ByteSize_append, String.utf8ByteSize_singleton, ← ih,
      ← List.singleton_append, byteCount_append]
    simp [byteCount]

theorem byteCount_le_of_suffix {rest text : List Char} (ends : rest <:+ text) :
    byteCount rest ≤ byteCount text := by
  obtain ⟨front, rfl⟩ := ends
  rw [byteCount_append]
  exact Nat.le_add_left ..

end Text

namespace PathData

open Decimal Numeral

section Separators

variable {text more rest : List Char} {c : Char}

theorem skipSeparators_append_of_cons (found : skipSeparators text = c :: rest) :
    skipSeparators (text ++ more) = c :: (rest ++ more) := by
  obtain ⟨gap, parts, separated⟩ := skipSeparators_spelled text
  have stop : isSeparator c = false := by
    have ahead := ahead_dropWhile isSeparator text
    exact ahead c rest found
  rw [parts, found, List.append_assoc, List.cons_append]
  exact skipSeparators_append separated (ahead_cons.mpr stop)

theorem skipSeparators_append_of_nil (none : skipSeparators text = []) :
    skipSeparators (text ++ more) = skipSeparators more := by
  obtain ⟨gap, parts, separated⟩ := skipSeparators_spelled text
  rw [none, List.append_nil] at parts
  rw [parts, skipSeparators, List.dropWhile_append_of_pos (separators_iff.mp separated)]
  rfl

theorem skipSeparators_suffix (text : List Char) : skipSeparators text <:+ text :=
  List.dropWhile_suffix _

end Separators

namespace Reader

variable {β γ : Type} {more : List Char} {read : Reader β} {next : β → Reader γ}

/-- Reads the same piece if the text goes on with `more`. -/
def Extends (more : List Char) (read : Reader β) : Prop :=
  ∀ ⦃text rest : List Char⦄ ⦃b : β⦄, read text = .ok (b, rest) →
    read (text ++ more) = .ok (b, rest ++ more)

/-- What is left is an end of the text, and so is the text from a fault on. -/
structure Within (read : Reader β) : Prop where
  rest : ∀ ⦃text rest : List Char⦄ ⦃b : β⦄, read text = .ok (b, rest) → rest <:+ text
  fault : ∀ ⦃text : List Char⦄ ⦃fault : Fault⦄, read text = .error fault → fault.rest <:+ text

theorem Extends.pure (b : β) : Extends more (pure b : Reader β) := by
  rintro text rest c ⟨⟩
  rfl

theorem Extends.bind (first : Extends more read) (second : ∀ b, Extends more (next b)) :
    Extends more (read >>= next) := by
  intro text rest c done
  obtain ⟨b, middle, head, tail⟩ := bind_eq_ok done
  rw [bind_of_ok (first head)]
  exact second b tail

theorem bind_eq_error {text : List Char} {fault : Fault}
    (failed : (read >>= next) text = .error fault) :
    read text = .error fault ∨
      ∃ b middle, read text = .ok (b, middle) ∧ next b middle = .error fault := by
  cases first : read text with
  | error other =>
    change (read text >>= fun p => next p.1 p.2) = _ at failed
    rw [first] at failed
    cases failed
    exact .inl rfl
  | ok found =>
    rw [bind_of_ok first] at failed
    exact .inr ⟨found.1, found.2, rfl, failed⟩

theorem Within.pure (b : β) : Within (pure b : Reader β) where
  rest := by
    rintro text rest c ⟨⟩
    exact List.suffix_rfl
  fault := nofun

theorem Within.bind (first : Within read) (second : ∀ b, Within (next b)) :
    Within (read >>= next) where
  rest := by
    intro text rest c done
    obtain ⟨b, middle, head, tail⟩ := bind_eq_ok done
    exact ((second b).rest tail).trans (first.rest head)
  fault := by
    intro text fault failed
    rcases bind_eq_error failed with now | ⟨b, middle, head, later⟩
    · exact first.fault now
    · exact ((second b).fault later).trans (first.rest head)

end Reader

/-- Operands are read piece by piece: what holds of the readers of numbers and flags, and of readers
one after the other, holds of the reader of operands. -/
theorem operands_of_pieces (holds : {β : Type} → Reader β → Prop)
    (pure : ∀ {β : Type} (b : β), holds (pure b : Reader β))
    (bind : ∀ {β γ : Type} {read : Reader β} {next : β → Reader γ}, holds read →
      (∀ b, holds (next b)) → holds (read >>= next))
    (number : holds number) (flag : holds flag) (verb : Verb) : holds (operands verb) := by
  have point : holds point := bind number fun _ => bind number fun _ => pure _
  cases verb with
  | move | line | smoothQuadratic => exact bind point fun _ => pure _
  | horizontal | vertical => exact bind number fun _ => pure _
  | cubic => exact bind point fun _ => bind point fun _ => bind point fun _ => pure _
  | smoothCubic | quadratic => exact bind point fun _ => bind point fun _ => pure _
  | arc =>
    exact bind point fun _ => bind number fun _ => bind flag fun _ => bind flag fun _ =>
      bind point fun _ => pure _
  | close => exact pure _

section Extends

variable {more : List Char}

theorem number_extends (apart : Apart more) : Reader.Extends more number := by
  intro text rest x done
  simp only [number_apply] at done ⊢
  split at done
  · cases done
  · rename_i c tail found
    rw [skipSeparators_append_of_cons found]
    split at done
    · cases done
    · cases done
    · rename_i n left taken
      have taken' : Numeral.read (c :: (tail ++ more)) = .ok (n, left ++ more) := by
        rw [← List.cons_append, ← found]
        exact read_append taken apart
      rw [found] at done
      split at done
      · rename_i finite
        cases done
        simp only [taken', finite, if_true]
      · cases done

theorem flag_extends : Reader.Extends more flag := by
  intro text rest set done
  simp only [flag] at done
  split at done
  · rename_i found
    cases done
    simp only [flag, skipSeparators_append_of_cons found]
  · rename_i found
    cases done
    simp only [flag, skipSeparators_append_of_cons found]
  · cases done
  · cases done

theorem operands_extends (apart : Apart more) (verb : Verb) :
    Reader.Extends more (operands verb) :=
  operands_of_pieces (Reader.Extends more) Reader.Extends.pure Reader.Extends.bind
    (number_extends apart) flag_extends verb

variable {previous : Option Letter} {text : List Char} {step : Step}

theorem next?_append (apart : Apart more) (done : next? previous text = .ok (some step)) :
    next? previous (text ++ more) =
      .ok (some ⟨step.letter, step.operands, step.rest ++ more⟩) := by
  obtain ⟨c, rest, left, found, begins, taken⟩ := next?_eq_some done
  have begins' : letter previous c (rest ++ more) = .ok (step.letter, left ++ more) := by
    rw [letter_eq_ok] at begins ⊢
    rcases begins with ⟨written, rfl, allowed⟩ | ⟨small, rfl, repeats⟩
    · exact .inl ⟨written, rfl, allowed⟩
    · exact .inr ⟨small, rfl, repeats⟩
  simp only [next?, skipSeparators_append_of_cons found, begins',
    operands_extends apart step.letter.verb taken]

end Extends

section Within

theorem number_within : Reader.Within number where
  rest := by
    intro text rest x done
    simp only [number_apply] at done
    split at done
    · cases done
    · split at done
      · cases done
      · cases done
      · rename_i taken
        obtain ⟨word, parts, -⟩ := spelled_of_read taken
        split at done
        · cases done
          exact .trans ⟨word, parts.symm⟩ (skipSeparators_suffix text)
        · cases done
  fault := by
    intro text fault failed
    simp only [number_apply] at failed
    split at failed
    · cases failed
      exact skipSeparators_suffix text
    · split at failed
      · cases failed
        exact skipSeparators_suffix text
      · cases failed
        exact skipSeparators_suffix text
      · split at failed
        · cases failed
        · cases failed
          exact skipSeparators_suffix text

theorem flag_within : Reader.Within flag where
  rest := by
    intro text rest set done
    have ends := skipSeparators_suffix text
    simp only [flag] at done
    split at done
    · rename_i found
      cases done
      rw [found] at ends
      exact .trans (List.suffix_cons ..) ends
    · rename_i found
      cases done
      rw [found] at ends
      exact .trans (List.suffix_cons ..) ends
    · cases done
    · cases done
  fault := by
    intro text fault failed
    simp only [flag] at failed
    split at failed
    · cases failed
    · cases failed
    · cases failed
      exact List.nil_suffix
    · cases failed
      exact skipSeparators_suffix text

theorem operands_within (verb : Verb) : Reader.Within (operands verb) :=
  operands_of_pieces Reader.Within Reader.Within.pure Reader.Within.bind
    number_within flag_within verb

variable {previous : Option Letter} {text rest left : List Char} {c : Char} {fault : Fault}

theorem rest_of_letter_error (failed : letter previous c rest = .error fault) :
    fault.rest = c :: rest := by
  unfold letter at failed
  split at failed
  · split at failed
    · cases failed
      rfl
    · cases failed
  · split at failed
    · cases failed
      rfl
    · split at failed
      · cases failed
        rfl
      · split at failed
        · cases failed
          rfl
        · split at failed
          · cases failed
            rfl
          · cases failed

theorem suffix_of_letter {letter : Letter}
    (begins : PathData.letter previous c rest = .ok (letter, left)) : left <:+ c :: rest := by
  rcases letter_eq_ok.mp begins with ⟨-, rfl, -⟩ | ⟨-, rfl, -⟩
  · exact List.suffix_cons ..
  · exact List.suffix_rfl

theorem suffix_of_next? {step : Step} (done : next? previous text = .ok (some step)) :
    step.rest <:+ text := by
  obtain ⟨c, rest, left, found, begins, taken⟩ := next?_eq_some done
  have ends := skipSeparators_suffix text
  rw [found] at ends
  exact .trans ((operands_within _).rest taken) (.trans (suffix_of_letter begins) ends)

theorem suffix_of_next?_error (failed : next? previous text = .error fault) :
    fault.rest <:+ text := by
  have ends := skipSeparators_suffix text
  simp only [next?] at failed
  split at failed
  · cases failed
  · rename_i c rest found
    rw [found] at ends
    split at failed
    · rename_i failed'
      cases failed
      rw [rest_of_letter_error failed']
      exact ends
    · rename_i begins
      split at failed
      · rename_i failed'
        cases failed
        exact .trans ((operands_within _).fault failed') (.trans (suffix_of_letter begins) ends)
      · cases failed

theorem groups_of_error (failed : next? previous text = .error fault) :
    groups previous text = ([], some fault) := by
  unfold groups
  split
  · rename_i other same
    rw [same] at failed
    cases failed
    rfl
  · simp_all
  · simp_all

/-- The place of a fault is a place in the text. -/
theorem suffix_of_groups (failed : (groups previous text).2 = some fault) :
    fault.rest <:+ text := by
  fun_induction groups previous text with
  | case1 previous text other found =>
    cases failed
    exact suffix_of_next?_error found
  | case2 => cases failed
  | case3 previous text step found more fault' tail ih =>
    rw [tail] at ih
    exact .trans (ih failed) (suffix_of_next? found)

end Within

end PathData
end VectorPaint
