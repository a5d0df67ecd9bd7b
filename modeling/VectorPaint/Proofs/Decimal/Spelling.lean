import Mathlib.Tactic.ByContra
import VectorPaint.Decimal.Numeral

/-!
How numbers are spelled. The spelling of a number is defined by its parts, without regard to how it
is read. Reading finds the longest spelling at the front of a text, and it fails if there is none or
if the letter after one begins no exponent.
-/
namespace VectorPaint.Decimal.Numeral

def AllDigits (text : List Char) : Prop := ∀ c ∈ text, c.isDigit = true

/-- A sign that may be missing: whether it is a minus, and its spelling. -/
inductive SignSpelled : Bool → List Char → Prop where
  | none : SignSpelled false []
  | plus : SignSpelled false ['+']
  | minus : SignSpelled true ['-']

/-- The digits after a point, and their spelling with it. There may be a point without digits. -/
inductive FractionSpelled : List Char → List Char → Prop where
  | none : FractionSpelled [] []
  | point {digits : List Char} : AllDigits digits → FractionSpelled digits ('.' :: digits)

/-- An exponent that may be missing. If there is a letter, then there are digits. -/
inductive ExponentSpelled : Int → List Char → Prop where
  | none : ExponentSpelled 0 []
  | letter {c : Char} {negative : Bool} {sign digits : List Char} :
      c = 'e' ∨ c = 'E' → SignSpelled negative sign → AllDigits digits → digits ≠ [] →
      ExponentSpelled (if negative then -digitsValue digits else digitsValue digits)
        (c :: (sign ++ digits))

/-- A number and its spelling. There is a digit before or after the point. -/
inductive Spelled : Numeral → List Char → Prop where
  | parts {negative : Bool} {whole fraction : List Char} {exponent : Int}
      {sign point power : List Char} :
      SignSpelled negative sign → AllDigits whole → FractionSpelled fraction point →
      whole ≠ [] ∨ fraction ≠ [] → ExponentSpelled exponent power →
      Spelled ⟨negative, whole, fraction, exponent⟩ (sign ++ (whole ++ (point ++ power)))

/-- No number at the front of the text is spelled with more characters. -/
def Longest (word text : List Char) : Prop :=
  ∀ longer m, longer <+: text → Spelled m longer → longer.length ≤ word.length

/-- If the text goes on, then with such a character. -/
def Ahead (holds : Char → Prop) (text : List Char) : Prop :=
  ∀ c rest, text = c :: rest → holds c

/-- The text does not go on with a letter that would begin an exponent. -/
def Clear (text : List Char) : Prop := Ahead (fun c => c ≠ 'e' ∧ c ≠ 'E') text

section Ahead

variable {holds : Char → Prop} {text rest digits : List Char}

@[simp]
theorem ahead_nil : Ahead holds [] := by
  intro c rest same
  cases same

@[simp]
theorem ahead_cons {c : Char} : Ahead holds (c :: rest) ↔ holds c := by
  constructor
  · intro ahead
    exact ahead c rest rfl
  · rintro held _ _ ⟨⟩
    exact held

theorem Ahead.of_append (ahead : Ahead holds (text ++ rest)) : Ahead holds text := by
  cases text with
  | nil => exact ahead_nil
  | cons c text => simpa using ahead

theorem Ahead.append (first : Ahead holds text) (second : text = [] → Ahead holds rest) :
    Ahead holds (text ++ rest) := by
  cases text with
  | nil => simpa using second rfl
  | cons c text => simpa using first

theorem AllDigits.ahead (all : AllDigits digits) (digit : ∀ c, c.isDigit = true → holds c) :
    Ahead holds digits := by
  rintro c rest rfl
  exact digit c (all c List.mem_cons_self)

theorem ahead_dropWhile (p : Char → Bool) (text : List Char) :
    Ahead (p · = false) (text.dropWhile p) := by
  intro c rest same
  have stopped := List.head?_dropWhile_not p text
  simpa [same] using stopped

theorem Ahead.takeWhile_eq {p : Char → Bool} (stop : Ahead (p · = false) rest) :
    rest.takeWhile p = [] := by
  cases rest with
  | nil => rfl
  | cons c rest => simp [ahead_cons.mp stop]

theorem Ahead.dropWhile_eq {p : Char → Bool} (stop : Ahead (p · = false) rest) :
    rest.dropWhile p = rest := by
  cases rest with
  | nil => rfl
  | cons c rest => simp [ahead_cons.mp stop]

theorem takeWhile_block {p : Char → Bool} (all : ∀ c ∈ text, p c = true)
    (stop : Ahead (p · = false) rest) : (text ++ rest).takeWhile p = text := by
  rw [List.takeWhile_append_of_pos all, stop.takeWhile_eq, List.append_nil]

theorem dropWhile_block {p : Char → Bool} (all : ∀ c ∈ text, p c = true)
    (stop : Ahead (p · = false) rest) : (text ++ rest).dropWhile p = rest := by
  rw [List.dropWhile_append_of_pos all, stop.dropWhile_eq]

end Ahead

private theorem isDigit_ne {c other : Char} (digit : c.isDigit = true)
    (not_digit : other.isDigit = false) : c ≠ other := by
  rintro rfl
  simp [digit] at not_digit

section Reading

variable {negative : Bool} {whole fraction sign point power digits rest text word : List Char}
  {exponent : Int} {n : Numeral}

theorem allDigits_takeWhile (text : List Char) : AllDigits (text.takeWhile Char.isDigit) :=
  fun _ member => List.all_eq_true.mp List.all_takeWhile _ member

theorem takeSign_append (spelled : SignSpelled negative sign)
    (unsigned : Ahead (fun c => c ≠ '-' ∧ c ≠ '+') text) :
    takeSign (sign ++ text) = (negative, text) := by
  cases spelled with
  | none =>
    simp only [List.nil_append]
    unfold takeSign
    split
    · exact absurd rfl (unsigned _ _ rfl).1
    · exact absurd rfl (unsigned _ _ rfl).2
    · rfl
  | plus => rfl
  | minus => rfl

theorem takeSign_spelled (text : List Char) :
    ∃ sign, text = sign ++ (takeSign text).2 ∧ SignSpelled (takeSign text).1 sign := by
  unfold takeSign
  split
  · exact ⟨['-'], rfl, .minus⟩
  · exact ⟨['+'], rfl, .plus⟩
  · exact ⟨[], rfl, .none⟩

theorem takeFraction_append (spelled : FractionSpelled fraction point)
    (stop : Ahead (·.isDigit = false) rest) (pointless : point = [] → Ahead (· ≠ '.') rest) :
    takeFraction (point ++ rest) = (fraction, rest) := by
  cases spelled with
  | none =>
    have pointless := pointless rfl
    simp only [List.nil_append]
    unfold takeFraction
    split
    · exact absurd rfl (pointless _ _ rfl)
    · rfl
  | point all =>
    simp only [List.cons_append, takeFraction, takeWhile_block all stop,
      dropWhile_block all stop]

theorem takeFraction_spelled (text : List Char)
    (stopped : Ahead (·.isDigit = false) text) :
    ∃ point, text = point ++ (takeFraction text).2 ∧
      FractionSpelled (takeFraction text).1 point ∧
      Ahead (·.isDigit = false) (takeFraction text).2 ∧
      (point = [] → Ahead (· ≠ '.') (takeFraction text).2) := by
  unfold takeFraction
  split
  · rename_i rest
    refine ⟨'.' :: rest.takeWhile Char.isDigit, ?_, .point (allDigits_takeWhile rest),
      ahead_dropWhile _ rest, ?_⟩
    · simp [List.takeWhile_append_dropWhile]
    · simp
  · rename_i other
    refine ⟨[], rfl, .none, stopped, ?_⟩
    rintro - c rest rfl rfl
    exact other rest rfl

private theorem FractionSpelled.ahead {holds : Char → Prop}
    (spelled : FractionSpelled fraction point) (dot : holds '.') : Ahead holds point := by
  cases spelled with
  | none => exact ahead_nil
  | point => simpa

/-- The digits of a number, or its point, are no second sign. -/
theorem unsigned_of_parts (rest : List Char) (all : AllDigits whole)
    (fractional : FractionSpelled fraction point) (some_digit : whole ≠ [] ∨ fraction ≠ []) :
    Ahead (fun c => c ≠ '-' ∧ c ≠ '+') (whole ++ (point ++ rest)) := by
  refine (all.ahead fun c digit => ?_).append fun no_whole => ?_
  · exact ⟨isDigit_ne digit rfl, isDigit_ne digit rfl⟩
  · refine (fractional.ahead (by decide)).append fun no_point => ?_
    subst no_whole no_point
    cases fractional
    simp at some_digit

theorem takeExponent_append (spelled : SignSpelled negative sign) (all : AllDigits digits)
    (some_digit : digits ≠ []) (stop : Ahead (·.isDigit = false) rest) :
    takeExponent (sign ++ (digits ++ rest)) =
      some (if negative then -(digitsValue digits : Int) else digitsValue digits, rest) := by
  have unsigned := unsigned_of_parts rest all .none (.inl some_digit)
  rw [List.nil_append] at unsigned
  simp only [takeExponent, takeSign_append spelled unsigned, takeWhile_block all stop,
    dropWhile_block all stop, List.isEmpty_iff, some_digit, if_false]

theorem takeOptionalExponent_append (spelled : ExponentSpelled exponent power)
    (stop : Ahead (·.isDigit = false) rest) (clear : power = [] → Clear rest) :
    takeOptionalExponent (power ++ rest) = some (exponent, rest) := by
  cases spelled with
  | none =>
    have clear := clear rfl
    simp only [List.nil_append]
    unfold takeOptionalExponent
    split
    · exact absurd rfl (clear _ _ rfl).1
    · exact absurd rfl (clear _ _ rfl).2
    · rfl
  | letter begins signed all some_digit =>
    have taken := takeExponent_append signed all some_digit stop
    rcases begins with rfl | rfl <;>
      simpa only [List.cons_append, List.append_assoc, takeOptionalExponent] using taken

theorem takeExponent_spelled {c : Char} (begins : c = 'e' ∨ c = 'E')
    (taken : takeExponent text = some (exponent, rest)) :
    ∃ power, c :: text = power ++ rest ∧ ExponentSpelled exponent power ∧ power ≠ [] ∧
      Ahead (·.isDigit = false) rest := by
  obtain ⟨sign, parts, signed⟩ := takeSign_spelled text
  simp only [takeExponent] at taken
  split at taken
  · cases taken
  · rename_i some_digit
    cases taken
    have spelled := ExponentSpelled.letter begins signed
      (allDigits_takeWhile (takeSign text).2) (by simpa using some_digit)
    refine ⟨_, ?_, spelled, by simp, ahead_dropWhile _ _⟩
    rw [List.cons_append, List.append_assoc, List.takeWhile_append_dropWhile, ← parts]

theorem takeOptionalExponent_spelled (taken : takeOptionalExponent text = some (exponent, rest))
    (stopped : Ahead (·.isDigit = false) text) :
    ∃ power, text = power ++ rest ∧ ExponentSpelled exponent power ∧
      Ahead (·.isDigit = false) rest ∧ (power = [] → Clear rest) := by
  unfold takeOptionalExponent at taken
  split at taken
  · obtain ⟨power, parts, spelled, some_power, stop⟩ :=
      takeExponent_spelled (.inl rfl) taken
    exact ⟨power, parts, spelled, stop, (absurd · some_power)⟩
  · obtain ⟨power, parts, spelled, some_power, stop⟩ :=
      takeExponent_spelled (.inr rfl) taken
    exact ⟨power, parts, spelled, stop, (absurd · some_power)⟩
  · rename_i small large
    cases taken
    refine ⟨[], rfl, .none, stopped, fun _ => ?_⟩
    rintro c rest rfl
    constructor
    · rintro rfl
      exact small rest rfl
    · rintro rfl
      exact large rest rfl

/-- Where a number ends. A part that is missing is not what the text goes on with. -/
structure Stops (point power rest : List Char) : Prop where
  digit : Ahead (·.isDigit = false) rest
  exponent : power = [] → Clear rest
  fraction : point = [] → power = [] → Ahead (· ≠ '.') rest

theorem stops_nil : Stops point power [] :=
  ⟨ahead_nil, fun _ => ahead_nil, fun _ _ => ahead_nil⟩

theorem Stops.of_append {more : List Char} (stops : Stops point power (rest ++ more)) :
    Stops point power rest :=
  ⟨stops.digit.of_append, fun none => (stops.exponent none).of_append,
    fun none none' => (stops.fraction none none').of_append⟩

private theorem ExponentSpelled.ahead {holds : Char → Prop}
    (spelled : ExponentSpelled exponent power) (small : holds 'e') (large : holds 'E') :
    Ahead holds power := by
  cases spelled with
  | none => exact ahead_nil
  | letter begins => rcases begins with rfl | rfl <;> simpa

theorem read_of_parts (signed : SignSpelled negative sign) (all : AllDigits whole)
    (fractional : FractionSpelled fraction point) (some_digit : whole ≠ [] ∨ fraction ≠ [])
    (raised : ExponentSpelled exponent power) (stops : Stops point power rest) :
    read (sign ++ (whole ++ (point ++ (power ++ rest)))) =
      .ok (⟨negative, whole, fraction, exponent⟩, rest) := by
  have power_ahead : Ahead (·.isDigit = false) (power ++ rest) := by
    refine Ahead.append (raised.ahead ?_ ?_) fun _ => stops.digit
    · rfl
    · rfl
  have point_ahead : Ahead (·.isDigit = false) (point ++ (power ++ rest)) := by
    refine Ahead.append (fractional.ahead ?_) fun _ => power_ahead
    rfl
  have unsigned := unsigned_of_parts (power ++ rest) all fractional some_digit
  have pointless : point = [] → Ahead (· ≠ '.') (power ++ rest) := by
    intro no_point
    refine (raised.ahead (by decide) (by decide)).append (stops.fraction no_point)
  have not_empty : (whole.isEmpty && fraction.isEmpty) = false := by
    rcases some_digit with some_digit | some_digit <;> simp [some_digit]
  simp only [read, takeSign_append signed unsigned, takeWhile_block all point_ahead,
    dropWhile_block all point_ahead, takeFraction_append fractional power_ahead pointless,
    takeOptionalExponent_append raised stops.digit stops.exponent, not_empty]
  rfl

theorem parts_of_read (done : read text = .ok (n, rest)) :
    ∃ sign point power, text = sign ++ (n.whole ++ (point ++ (power ++ rest))) ∧
      SignSpelled n.negative sign ∧ AllDigits n.whole ∧ FractionSpelled n.fraction point ∧
      (n.whole ≠ [] ∨ n.fraction ≠ []) ∧ ExponentSpelled n.exponent power ∧
      Stops point power rest := by
  obtain ⟨sign, signless, signed⟩ := takeSign_spelled text
  obtain ⟨point, pointless, fractional, stopped, dotless⟩ :=
    takeFraction_spelled _ (ahead_dropWhile Char.isDigit (takeSign text).2)
  simp only [read] at done
  split at done
  · cases done
  · rename_i some_digit
    split at done
    · cases done
    · rename_i exponent rest taken
      cases done
      obtain ⟨power, powerless, raised, stop, clear⟩ :=
        takeOptionalExponent_spelled taken stopped
      refine ⟨sign, point, power, ?_, signed, allDigits_takeWhile _, fractional, ?_, raised,
        stop, clear, ?_⟩
      · rw [← powerless, ← pointless, List.takeWhile_append_dropWhile]
        exact signless
      · simpa only [Bool.and_eq_true, List.isEmpty_iff, Decidable.not_and_iff_not_or_not]
          using some_digit
      · rintro no_point rfl
        simpa [powerless] using dotless no_point

/-- What is read is spelled by the text in front of the rest. -/
theorem spelled_of_read (done : read text = .ok (n, rest)) :
    ∃ word, text = word ++ rest ∧ Spelled n word ∧ Longest word text := by
  obtain ⟨sign, point, power, rfl, signed, all, fractional, some_digit, raised, stops⟩ :=
    parts_of_read done
  refine ⟨sign ++ (n.whole ++ (point ++ power)), by simp,
    .parts signed all fractional some_digit raised, ?_⟩
  rintro longer m ⟨more, same⟩ spelled
  by_contra long
  -- The spelled text is read whole, and also only up to where the first reading stopped.
  have starts : sign ++ (n.whole ++ (point ++ power)) <+: longer ++ more := by
    rw [same]
    exact ⟨rest, by simp⟩
  obtain ⟨extra, rfl⟩ :=
    List.prefix_of_prefix_length_le starts (List.prefix_append ..) (by omega)
  obtain rfl : extra ++ more = rest := by simpa using same
  have short := read_of_parts signed all fractional some_digit raised stops.of_append
  generalize whole_text : sign ++ (n.whole ++ (point ++ power)) ++ extra = longer at spelled
  obtain ⟨signed', all', fractional', some_digit', raised'⟩ := spelled
  have whole := read_of_parts signed' all' fractional' some_digit' raised' stops_nil
  simp only [List.append_nil, ← whole_text] at whole
  simp only [List.append_assoc] at whole
  rw [short] at whole
  simp only [Except.ok.injEq, Prod.mk.injEq] at whole
  simp [whole.2] at long

private theorem Longest.not_spelled {c : Char} {m : Numeral}
    (longest : Longest word (word ++ c :: rest)) : ¬ Spelled m (word ++ [c]) := by
  intro spelled
  have short := longest (word ++ [c]) m ⟨rest, by simp⟩ spelled
  simp only [List.length_append, List.length_cons, List.length_nil] at short
  omega

private theorem AllDigits.concat {c : Char} (all : AllDigits digits) (digit : c.isDigit = true) :
    AllDigits (digits ++ [c]) := by
  intro other member
  rcases List.mem_append.mp member with member | member
  · exact all other member
  · rw [List.mem_singleton.mp member]
    exact digit

private theorem spelled_concat_digit {c : Char} (signed : SignSpelled negative sign)
    (all : AllDigits whole) (fractional : FractionSpelled fraction point)
    (some_digit : whole ≠ [] ∨ fraction ≠ []) (raised : ExponentSpelled exponent power)
    (digit : c.isDigit = true) :
    ∃ m, Spelled m (sign ++ (whole ++ (point ++ power)) ++ [c]) := by
  cases raised with
  | letter begins signed' all' =>
    have raised := ExponentSpelled.letter begins signed' (all'.concat digit) (by simp)
    have spelled := Spelled.parts signed all fractional some_digit raised
    exact ⟨_, by simpa using spelled⟩
  | none =>
    cases fractional with
    | none =>
      have spelled := Spelled.parts signed (all.concat digit) .none (.inl (by simp)) .none
      exact ⟨_, by simpa using spelled⟩
    | point all' =>
      have spelled :=
        Spelled.parts signed all (.point (all'.concat digit)) (.inr (by simp)) .none
      exact ⟨_, by simpa using spelled⟩

private theorem spelled_concat_point (signed : SignSpelled negative sign)
    (all : AllDigits whole) (some_digit : whole ≠ []) :
    Spelled ⟨negative, whole, [], 0⟩ (sign ++ whole ++ ['.']) := by
  have pointed : FractionSpelled [] ['.'] := .point (by simp [AllDigits])
  simpa using Spelled.parts signed all pointed (.inl some_digit) .none

/-- The longest spelling is read, if no letter of an exponent follows. -/
theorem read_of_spelled (spelled : Spelled n word) (longest : Longest word (word ++ rest))
    (clear : Clear rest) : read (word ++ rest) = .ok (n, rest) := by
  obtain @⟨negative, whole, fraction, exponent, sign, point, power, signed, all, fractional,
    some_digit, raised⟩ := spelled
  have stops : Stops point power rest := by
    refine ⟨?_, fun _ => clear, ?_⟩
    · rintro c more rfl
      by_contra digit
      obtain ⟨m, longer⟩ := spelled_concat_digit signed all fractional some_digit raised
        (by simpa using digit)
      exact longest.not_spelled longer
    · rintro rfl rfl c more rfl rfl
      cases fractional
      have longer := spelled_concat_point signed all (by simpa using some_digit)
      exact longest.not_spelled (by simpa using longer)
  simpa only [List.append_assoc] using
    read_of_parts signed all fractional some_digit raised stops

/-- A number begins with a sign, a point or a digit. -/
theorem Spelled.begins (spelled : Spelled n word) :
    ∃ c more, word = c :: more ∧ (c = '+' ∨ c = '-' ∨ c = '.' ∨ c.isDigit = true) := by
  obtain ⟨signed, all, fractional, some_digit, raised⟩ := spelled
  cases signed with
  | plus => exact ⟨'+', _, rfl, by simp⟩
  | minus => exact ⟨'-', _, rfl, by simp⟩
  | none =>
    rename_i whole fraction exponent point power
    cases whole with
    | cons c more => exact ⟨c, _, rfl, by simp [all c List.mem_cons_self]⟩
    | nil =>
      cases fractional with
      | none => simp at some_digit
      | point => exact ⟨'.', _, rfl, by simp⟩

end Reading

end VectorPaint.Decimal.Numeral
