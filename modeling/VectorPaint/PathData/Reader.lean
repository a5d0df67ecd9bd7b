import VectorPaint.Decimal.Numeral
import VectorPaint.Plane.Basic
import VectorPaint.Scalar.Binary64
import VectorPaint.Text.Pieces

/-!
Readers of the pieces of path data: numbers, flags and points, each after any separators. A reader
hands on the text that follows, and every reader of a piece takes at least one character from it. A
fault holds the text from the place where it shows; as an error it is told by its place and in
words.
-/
namespace VectorPaint.PathData

inductive Cause where
  | numberMissing
  | numberExpected
  | malformedExponent
  | malformedNumber
  | numberOutOfRange
  | flagMissing
  | flagExpected
  | movetoExpected
  | unknownCommand (letter : Char)
  | unsupportedCommand (letter : Char)
  | commandExpected
  | trailingCharacters
  deriving Repr, DecidableEq

/-- A cause, and the number of bytes before the place where it shows. -/
structure Error where
  offset : Nat
  cause : Cause
  deriving Repr, DecidableEq

/-- What is wrong, in words. -/
def Cause.reason : Cause → String
  | numberMissing => "unexpected end of path data, number expected"
  | numberExpected => "number expected"
  | malformedExponent => "malformed number exponent"
  | malformedNumber => "malformed number"
  | numberOutOfRange => "number is out of range"
  | flagMissing => "unexpected end of path data, flag expected"
  | flagExpected => "arc flag must be either 0 or 1"
  | movetoExpected => "path data must start with a moveto command"
  | unknownCommand letter => "unknown path command '" ++ letter.toString ++ "'"
  | unsupportedCommand letter => "unsupported path command '" ++ letter.toString ++ "'"
  | commandExpected => "path command expected"
  | trailingCharacters => "unexpected trailing characters"

def Error.message (error : Error) : String :=
  match error.cause with
  | .unsupportedCommand _ => error.cause.reason ++ " at offset " ++ toString error.offset
  | cause => "path syntax error at offset " ++ toString error.offset ++ ": " ++ cause.reason

structure Fault where
  cause : Cause
  rest : List Char

/-- The fault as seen from the start of the text that was read. -/
def Fault.toError (fault : Fault) (text : List Char) : Error :=
  ⟨Text.byteCount text - Text.byteCount fault.rest, fault.cause⟩

abbrev Reader (β : Type) := StateT (List Char) (Except Fault) β

def isSeparator (c : Char) : Bool :=
  c == ' ' || c == '\t' || c == '\r' || c == '\n' || c == '\x0c' || c == ','

def skipSeparators (text : List Char) : List Char := text.dropWhile isSeparator

/-- A number whose value is finite, as `value?` tells the value of a numeral. -/
def numberBy (value? : Decimal.Numeral → Option Float) : Reader Float := fun text =>
  let text := skipSeparators text
  match text with
  | [] => .error ⟨.numberMissing, text⟩
  | _ :: _ =>
    match Decimal.Numeral.read text with
    | .error .noDigits => .error ⟨.numberExpected, text⟩
    | .error .noExponentDigits => .error ⟨.malformedExponent, text⟩
    | .ok (numeral, rest) =>
      match value? numeral with
      | none => .error ⟨.malformedNumber, text⟩
      | some value =>
        if value.isFinite then .ok (value, rest) else .error ⟨.numberOutOfRange, text⟩

/-- A number with the value nearest to it. What has been read as a numeral always has one, so that
no number is malformed. -/
def number : Reader Float := numberBy fun numeral => some numeral.value

/-- A flag is a single digit, so that flags need no separators between them. -/
def flag : Reader Bool := fun text =>
  match skipSeparators text with
  | '0' :: rest => .ok (false, rest)
  | '1' :: rest => .ok (true, rest)
  | [] => .error ⟨.flagMissing, []⟩
  | text => .error ⟨.flagExpected, text⟩

def point : Reader (Point Float) := do
  let x ← number
  let y ← number
  return ⟨x, y⟩

/-- Leaves no more text than it is given. -/
def Reader.Keeps {β : Type} (read : Reader β) : Prop :=
  ∀ ⦃text rest : List Char⦄ ⦃b : β⦄, read text = .ok (b, rest) → rest.length ≤ text.length

/-- Leaves less text than it is given. -/
def Reader.Takes {β : Type} (read : Reader β) : Prop :=
  ∀ ⦃text rest : List Char⦄ ⦃b : β⦄, read text = .ok (b, rest) → rest.length < text.length

namespace Reader

variable {β γ : Type}

theorem bind_eq_ok {read : Reader β} {next : β → Reader γ} {text rest : List Char} {c : γ}
    (done : (read >>= next) text = .ok (c, rest)) :
    ∃ b middle, read text = .ok (b, middle) ∧ next b middle = .ok (c, rest) := by
  change (read text >>= fun p => next p.1 p.2) = _ at done
  match first : read text with
  | .error fault =>
    rw [first] at done
    cases done
  | .ok (b, middle) =>
    rw [first] at done
    exact ⟨b, middle, rfl, done⟩

theorem Takes.keeps {read : Reader β} (takes : Takes read) : Keeps read :=
  fun _ _ _ done => Nat.le_of_lt (takes done)

theorem Keeps.pure (b : β) : Keeps (pure b : Reader β) := by
  intro text rest c done
  cases done
  exact Nat.le_refl _

theorem Keeps.bind {read : Reader β} {next : β → Reader γ} (first : Keeps read)
    (second : ∀ b, Keeps (next b)) : Keeps (read >>= next) := by
  intro text rest c done
  obtain ⟨b, middle, head, tail⟩ := bind_eq_ok done
  exact Nat.le_trans (second b tail) (first head)

theorem Takes.bind {read : Reader β} {next : β → Reader γ} (first : Takes read)
    (second : ∀ b, Keeps (next b)) : Takes (read >>= next) := by
  intro text rest c done
  obtain ⟨b, middle, head, tail⟩ := bind_eq_ok done
  exact Nat.lt_of_le_of_lt (second b tail) (first head)

end Reader

theorem length_skipSeparators_le (text : List Char) :
    (skipSeparators text).length ≤ text.length :=
  (List.dropWhile_suffix _).length_le

theorem number_apply (text : List Char) : number text =
    match skipSeparators text with
    | [] => .error ⟨.numberMissing, skipSeparators text⟩
    | _ :: _ =>
      match Decimal.Numeral.read (skipSeparators text) with
      | .error .noDigits => .error ⟨.numberExpected, skipSeparators text⟩
      | .error .noExponentDigits => .error ⟨.malformedExponent, skipSeparators text⟩
      | .ok (numeral, rest) =>
        if numeral.value.isFinite then .ok (numeral.value, rest)
        else .error ⟨.numberOutOfRange, skipSeparators text⟩ := rfl

theorem numberBy_takes (value? : Decimal.Numeral → Option Float) :
    Reader.Takes (numberBy value?) := by
  intro text rest value done
  have shorter := length_skipSeparators_le text
  simp only [numberBy] at done
  generalize skipSeparators text = piece at done shorter
  split at done
  · cases done
  · split at done
    · cases done
    · cases done
    · rename_i taken
      split at done
      · cases done
      · split at done
        · cases done
          exact Nat.lt_of_lt_of_le (Decimal.Numeral.length_lt_of_read taken) shorter
        · cases done

theorem number_takes : Reader.Takes number := numberBy_takes _

theorem flag_takes : Reader.Takes flag := by
  intro text rest value done
  have shorter := length_skipSeparators_le text
  simp only [flag] at done
  generalize skipSeparators text = piece at done shorter
  split at done
  · cases done
    exact shorter
  · cases done
    exact shorter
  · cases done
  · cases done

theorem point_takes : Reader.Takes point :=
  number_takes.bind fun _ => (number_takes.keeps).bind fun _ => .pure _

end VectorPaint.PathData
