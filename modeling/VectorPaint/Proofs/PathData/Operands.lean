import Mathlib.Tactic.ByContra
import VectorPaint.PathData.Group
import VectorPaint.Proofs.PathData.Grammar

/-!
Readers and the language agree on operands. Each verb reads its operands as one list of kinds, and
such a list is read exactly when a group of these kinds is at the front of the text.
-/
namespace VectorPaint.PathData

open Decimal Numeral

section Separators

variable {gap text : List Char}

theorem isSeparator_iff {c : Char} :
    isSeparator c = true ↔ c ∈ [' ', '\t', '\r', '\n', '\x0c', ','] := by
  simp [isSeparator, or_assoc]

theorem separators_iff : Separators gap ↔ ∀ c ∈ gap, isSeparator c = true := by
  simp only [Separators, isSeparator_iff]

theorem skipSeparators_append (separated : Separators gap)
    (stop : Ahead (isSeparator · = false) text) : skipSeparators (gap ++ text) = text :=
  dropWhile_block (separators_iff.mp separated) stop

theorem skipSeparators_spelled (text : List Char) :
    ∃ gap, text = gap ++ skipSeparators text ∧ Separators gap := by
  refine ⟨text.takeWhile isSeparator, List.takeWhile_append_dropWhile.symm, ?_⟩
  rw [separators_iff]
  intro c member
  exact List.all_eq_true.mp List.all_takeWhile c member

theorem separators_nil : Separators [] := by
  intro c member
  cases member

theorem skipSeparators_idem (text : List Char) :
    skipSeparators (skipSeparators text) = skipSeparators text :=
  skipSeparators_append separators_nil (ahead_dropWhile isSeparator text)

theorem Separators.clear (separated : Separators gap) : Clear gap := by
  rintro c rest rfl
  have found := separated c List.mem_cons_self
  constructor
  · rintro rfl
    simp at found
  · rintro rfl
    simp at found

end Separators

/-- Neither a letter nor a separator. -/
def isMark (c : Char) : Bool := !c.isAlpha && !isSeparator c

private theorem isMark_of_isDigit {c : Char} (digit : c.isDigit = true) : isMark c = true := by
  have marks : ∀ n < 58, 48 ≤ n → isMark (Char.ofNat n) = true := by decide
  obtain ⟨low, high⟩ := Char.isDigit_iff_toNat.mp digit
  rw [← Char.ofNat_toNat c]
  exact marks c.toNat (Nat.lt_succ_of_le high) low

private theorem isMark_of_begins {c : Char}
    (shape : c = '+' ∨ c = '-' ∨ c = '.' ∨ c.isDigit = true) : isMark c = true := by
  rcases shape with rfl | rfl | rfl | digit
  · rfl
  · rfl
  · rfl
  · exact isMark_of_isDigit digit

private theorem clear_of_isMark {c : Char} {text : List Char} (mark : isMark c = true) :
    Clear (c :: text) := by
  rw [Clear, ahead_cons]
  constructor
  · rintro rfl
    cases mark
  · rintro rfl
    cases mark

namespace Reader

variable {β γ : Type} {read : Reader β} {next : β → Reader γ} {f : β → γ}
  {text middle rest : List Char} {b : β} {c : γ}

theorem map_eq_ok :
    (f <$> read) text = .ok (c, rest) ↔ ∃ b, read text = .ok (b, rest) ∧ f b = c := by
  change (read text >>= fun p => pure (f p.1, p.2)) = _ ↔ _
  match read text with
  | .error fault => simp [bind, Except.bind]
  | .ok (b, left) =>
    simp only [bind, Except.bind, pure, Except.pure, Except.ok.injEq, Prod.mk.injEq]
    constructor
    · rintro ⟨rfl, rfl⟩
      exact ⟨b, ⟨rfl, rfl⟩, rfl⟩
    · rintro ⟨_, ⟨rfl, rfl⟩, rfl⟩
      exact ⟨rfl, rfl⟩

theorem bind_of_ok (done : read text = .ok (b, middle)) :
    (read >>= next) text = next b middle := by
  change (read text >>= fun p => next p.1 p.2) = _
  rw [done]
  rfl

end Reader

section Operand

variable {kind : Kind} {kinds : List Kind} {value : Value} {values : Values}
  {text rest gap : List Char}

/-- An operand begins with a character that is neither a letter nor a separator. -/
theorem Token.begins (token : Token kind value text rest) :
    ∃ c more, text = c :: more ∧ isMark c = true := by
  cases token with
  | zero => exact ⟨'0', _, rfl, rfl⟩
  | one => exact ⟨'1', _, rfl, rfl⟩
  | number spelled =>
    obtain ⟨c, more, rfl, shape⟩ := spelled.begins
    exact ⟨c, _, rfl, isMark_of_begins shape⟩

theorem Token.skipSeparators (token : Token kind value text rest) (separated : Separators gap) :
    skipSeparators (gap ++ text) = text := by
  obtain ⟨c, more, rfl, mark⟩ := token.begins
  apply skipSeparators_append separated
  rw [ahead_cons]
  simp only [isMark, Bool.and_eq_true, Bool.not_eq_true'] at mark
  exact mark.2

theorem OneGroup.skipSeparators (form : OneGroup (kind :: kinds) values text rest) :
    ∃ c more, PathData.skipSeparators text = c :: more ∧ isMark c = true ∧
      OneGroup (kind :: kinds) values (c :: more) rest := by
  cases form with
  | cons separated token tail =>
    obtain ⟨c, more, same, mark⟩ := token.begins
    subst same
    exact ⟨c, more, token.skipSeparators separated, mark, .cons separators_nil token tail⟩

theorem OneGroup.prepend (separated : Separators gap)
    (form : OneGroup (kind :: kinds) values text rest) :
    OneGroup (kind :: kinds) values (gap ++ text) rest := by
  cases form with
  | cons separated' token tail =>
    rw [← List.append_assoc]
    refine .cons ?_ token tail
    intro c member
    rcases List.mem_append.mp member with member | member
    · exact separated c member
    · exact separated' c member

/-- Reads one operand of a kind. -/
def operand : Kind → Reader Value
  | .number => Value.number <$> number
  | .flag => Value.flag <$> flag

theorem operand_skipSeparators (kind : Kind) (text : List Char) :
    operand kind (skipSeparators text) = operand kind text := by
  cases kind with
  | number =>
    have same : number (skipSeparators text) = number text := by
      simp only [number_apply, skipSeparators_idem]
    simp only [operand, Functor.map, StateT.map, same]
  | flag =>
    have same : flag (skipSeparators text) = flag text := by
      simp only [flag, skipSeparators_idem]
    simp only [operand, Functor.map, StateT.map, same]

theorem operand_of_token (token : Token kind value text rest) (separated : Separators gap) :
    operand kind (gap ++ text) = .ok (value, rest) := by
  rw [← operand_skipSeparators, token.skipSeparators separated]
  have unspaced := token.skipSeparators separators_nil
  cases token with
  | zero => rfl
  | one => rfl
  | @number n word rest spelled longest clear finite =>
    apply Reader.map_eq_ok.mpr
    refine ⟨n.value, ?_, rfl⟩
    obtain ⟨c, more, rfl, -⟩ := spelled.begins
    simp only [number_apply, List.nil_append] at unspaced ⊢
    simp only [unspaced, read_of_spelled spelled longest clear, finite, if_true]
    rfl

theorem number_of_token {x : Float} (token : Token .number (.number x) text rest) :
    number text = .ok (x, rest) := by
  obtain ⟨_, done, ⟨⟩⟩ := Reader.map_eq_ok.mp (operand_of_token token separators_nil)
  exact done

/-- The text that a number is read from. -/
theorem number_spelled {x : Float} (done : number text = .ok (x, rest)) :
    ∃ n word, skipSeparators text = word ++ rest ∧ Spelled n word ∧
      Longest word (word ++ rest) ∧ n.value.isFinite = true ∧ n.value = x := by
  simp only [number_apply] at done
  split at done
  · cases done
  · split at done
    · cases done
    · cases done
    · rename_i n left taken
      split at done
      · rename_i finite
        cases done
        obtain ⟨word, parts, spelled, longest⟩ := spelled_of_read taken
        rw [parts] at longest
        exact ⟨n, word, parts, spelled, longest, finite, rfl⟩
      · cases done

theorem flag_spelled {set : Bool} (done : flag text = .ok (set, rest)) :
    skipSeparators text = (if set then '1' else '0') :: rest := by
  simp only [flag] at done
  split at done
  · cases done
    assumption
  · cases done
    assumption
  · cases done
  · cases done

theorem token_of_operand (done : operand kind text = .ok (value, rest)) (clear : Clear rest) :
    Token kind value (skipSeparators text) rest := by
  cases kind with
  | number =>
    obtain ⟨x, taken, rfl⟩ := Reader.map_eq_ok.mp done
    obtain ⟨n, word, parts, spelled, longest, finite, rfl⟩ := number_spelled taken
    rw [parts]
    exact .number spelled longest clear finite
  | flag =>
    obtain ⟨set, taken, rfl⟩ := Reader.map_eq_ok.mp done
    rw [flag_spelled taken]
    cases set with
    | false => exact .zero
    | true => exact .one

/-- Where an operand is read, a number may end. -/
theorem clear_of_operand (done : operand kind text = .ok (value, rest)) : Clear text := by
  obtain ⟨gap, parts, separated⟩ := skipSeparators_spelled text
  rw [parts]
  refine Ahead.append separated.clear fun _ => ?_
  cases kind with
  | number =>
    obtain ⟨x, taken, -⟩ := Reader.map_eq_ok.mp done
    obtain ⟨n, word, parts, spelled, -⟩ := number_spelled taken
    obtain ⟨c, more, rfl, shape⟩ := spelled.begins
    rw [parts]
    exact clear_of_isMark (isMark_of_begins shape)
  | flag =>
    obtain ⟨set, taken, -⟩ := Reader.map_eq_ok.mp done
    rw [flag_spelled taken]
    cases set with
    | false => exact clear_of_isMark rfl
    | true => exact clear_of_isMark rfl

/-- Reads one group of operands of these kinds. -/
def operandGroup : List Kind → Reader Values
  | [] => pure []
  | kind :: kinds => do
    let value ← operand kind
    let values ← operandGroup kinds
    return value :: values

theorem operandGroup_of_oneGroup (form : OneGroup kinds values text rest) :
    operandGroup kinds text = .ok (values, rest) := by
  induction form with
  | nil => rfl
  | cons separated token _ ih =>
    rw [operandGroup, Reader.bind_of_ok (operand_of_token token separated),
      Reader.bind_of_ok ih]
    rfl

theorem oneGroup_of_operandGroup (done : operandGroup kinds text = .ok (values, rest))
    (clear : Clear rest) : OneGroup kinds values text rest := by
  induction kinds generalizing text values with
  | nil =>
    cases done
    exact .nil
  | cons kind kinds ih =>
    obtain ⟨value, middle, first, done⟩ := Reader.bind_eq_ok done
    obtain ⟨more, left, second, done⟩ := Reader.bind_eq_ok done
    cases done
    -- Each operand is followed by the next one, which never begins like an exponent.
    have middle_clear : Clear middle := by
      cases kinds with
      | nil =>
        cases second
        exact clear
      | cons kind kinds =>
        obtain ⟨_, _, next, -⟩ := Reader.bind_eq_ok second
        exact clear_of_operand next
    obtain ⟨gap, parts, separated⟩ := skipSeparators_spelled text
    rw [parts]
    exact .cons separated (token_of_operand first middle_clear) (ih second)

end Operand

def Verb.kinds : Verb → List Kind
  | .move | .line | .smoothQuadratic => [.number, .number]
  | .horizontal | .vertical => [.number]
  | .smoothCubic | .quadratic => [.number, .number, .number, .number]
  | .cubic => [.number, .number, .number, .number, .number, .number]
  | .arc => [.number, .number, .number, .flag, .flag, .number, .number]
  | .close => []

theorem Verb.exists_kinds {verb : Verb} (draws : verb ≠ .close) :
    ∃ kind kinds, verb.kinds = kind :: kinds := by
  cases verb with
  | close => exact absurd rfl draws
  | _ => exact ⟨_, _, rfl⟩

def Operands.verb {α : Type} : Operands α → Verb
  | .move _ => .move
  | .line _ => .line
  | .horizontal _ => .horizontal
  | .vertical _ => .vertical
  | .cubic _ _ _ => .cubic
  | .smoothCubic _ _ => .smoothCubic
  | .quadratic _ _ => .quadratic
  | .smoothQuadratic _ => .smoothQuadratic
  | .arc _ _ _ _ _ => .arc
  | .close => .close

def Point.values (p : Point Float) : Values := [.number p.x, .number p.y]

/-- The operands in the order they are written. -/
def Operands.values : Operands Float → Values
  | .move p | .line p | .smoothQuadratic p => Point.values p
  | .horizontal x | .vertical x => [.number x]
  | .cubic control₁ control₂ p =>
    Point.values control₁ ++ Point.values control₂ ++ Point.values p
  | .smoothCubic control p | .quadratic control p => Point.values control ++ Point.values p
  | .arc radii rotation large sweep p =>
    Point.values radii ++ [.number rotation, .flag large, .flag sweep] ++ Point.values p
  | .close => []

theorem operandGroup_eq (verb : Verb) :
    operandGroup verb.kinds = Operands.values <$> operands verb := by
  cases verb <;>
    simp [operandGroup, Verb.kinds, operand, operands, Operands.values, Point.values, point]

section Verb

variable {verb : Verb} {read : Operands Float} {values : Values} {text rest : List Char}

theorem verb_of_operands (done : operands verb text = .ok (read, rest)) : read.verb = verb := by
  have same : Operands.verb <$> operands verb = (fun _ => verb) <$> operands verb := by
    cases verb <;> simp [operands, Operands.verb]
  have found : (Operands.verb <$> operands verb) text = .ok (read.verb, rest) :=
    Reader.map_eq_ok.mpr ⟨read, done, rfl⟩
  rw [same] at found
  obtain ⟨_, -, verb_eq⟩ := Reader.map_eq_ok.mp found
  exact verb_eq.symm

theorem operands_of_oneGroup (form : OneGroup verb.kinds values text rest) :
    ∃ read, operands verb text = .ok (read, rest) ∧ read.verb = verb ∧ read.values = values := by
  have taken := operandGroup_of_oneGroup form
  rw [operandGroup_eq, Reader.map_eq_ok] at taken
  obtain ⟨read, taken, values_eq⟩ := taken
  exact ⟨read, taken, verb_of_operands taken, values_eq⟩

theorem oneGroup_of_operands (done : operands verb text = .ok (read, rest))
    (clear : Clear rest) : OneGroup verb.kinds read.values text rest := by
  refine oneGroup_of_operandGroup ?_ clear
  rw [operandGroup_eq, Reader.map_eq_ok]
  exact ⟨read, done, rfl⟩

end Verb

end VectorPaint.PathData
