import VectorPaint.Proofs.Color.Channel
import VectorPaint.Proofs.Text.Pieces

/-!
Colors as functions. What is between the brackets is cut into pieces, three or four of them, and
each is a number with a percent sign or without one. The color depends on the pieces alone, and on
those only up to the case of letters. Texts that are not so are all malformed in the same way. All
of this holds whatever the reader is that tells which texts are numbers.
-/
namespace VectorPaint

namespace Rgba

variable {number? : List Char → Option Float}

/-- An argument and its spelling: a finite number, and a percent sign behind it or none. A sign at
the end is never left to the reader of numbers. -/
inductive Argument.Spelled (number? : List Char → Option Float) : Argument → List Char → Prop where
  | plain {word : List Char} {value : Float} : number? word = some value →
      value.isFinite = true → word.getLast? ≠ some '%' → Spelled number? ⟨value, false⟩ word
  | percent {word : List Char} {value : Float} : number? word = some value →
      value.isFinite = true → Spelled number? ⟨value, true⟩ (word ++ ['%'])

/-- The color of three pieces for its channels, and of a fourth one for its alpha. -/
inductive Listed (number? : List Char → Option Float) : List (List Char) → Rgba → Prop where
  | three {r g b : Argument} {first second third : List Char} : r.Spelled number? first →
      g.Spelled number? second → b.Spelled number? third →
      Listed number? [first, second, third] ⟨r.channel, g.channel, b.channel, 255⟩
  | four {r g b a : Argument} {first second third fourth : List Char} : r.Spelled number? first →
      g.Spelled number? second → b.Spelled number? third → a.Spelled number? fourth →
      Listed number? [first, second, third, fourth] ⟨r.channel, g.channel, b.channel, a.alpha⟩

/-- Three or four pieces, all of them arguments. -/
structure Accepted (number? : List Char → Option Float) (pieces : List (List Char)) : Prop where
  length : pieces.length = 3 ∨ pieces.length = 4
  spelled : ∀ piece ∈ pieces, ∃ a : Argument, a.Spelled number? piece

/-- The pieces between the brackets of a function, in small letters. -/
def piecesOf (inside : List Char) : List (List Char) :=
  (Text.partsBetween isArgumentSeparator inside).map (List.map Char.toLower)

/-- The name of a color function in any case, its opening bracket, and then the rest. -/
def FunctionForm (text rest : List Char) : Prop :=
  ∃ name, text = name ++ '(' :: rest ∧
    (name.map Char.toLower = ['r', 'g', 'b'] ∨ name.map Char.toLower = ['r', 'g', 'b', 'a'])

/-- The beginning of a color function between blanks, and the rest. -/
def FunctionNotation (text : String) (rest : List Char) : Prop :=
  FunctionForm (Text.trim text.toList) rest

variable {a : Argument} {c : Rgba} {word inside rest lowered : List Char}
  {pieces : List (List Char)}

private theorem finite_iff {digits : List Char} {percent : Bool} :
    (match number? digits with
      | some value => if value.isFinite then some (⟨value, percent⟩ : Argument) else none
      | none => none) = some a ↔
    ∃ value, number? digits = some value ∧ value.isFinite = true ∧ a = ⟨value, percent⟩ := by
  cases number? digits with
  | none => simp
  | some value =>
    by_cases finite : value.isFinite = true
    · simp only [finite, if_true, Option.some.injEq, exists_eq_left', true_and]
      exact eq_comm
    · simp [finite]

theorem read?_eq_some : Argument.read? number? word = some a ↔ a.Spelled number? word := by
  unfold Argument.read?
  cases marked : Text.beforeLast? '%' word with
  | some digits =>
    obtain rfl := Text.beforeLast?_eq_some.mp marked
    refine finite_iff.trans ⟨?_, fun spelled => ?_⟩
    · rintro ⟨value, number, finite, rfl⟩
      exact .percent number finite
    · generalize same : digits ++ ['%'] = word at spelled
      cases spelled with
      | plain number finite unmarked => exact absurd (same ▸ List.getLast?_concat) unmarked
      | percent number finite =>
        obtain rfl := List.append_cancel_right same
        exact ⟨_, number, finite, rfl⟩
  | none =>
    refine finite_iff.trans ⟨?_, ?_⟩
    · rintro ⟨value, number, finite, rfl⟩
      refine .plain number finite fun last => ?_
      obtain ⟨front, rfl⟩ := List.getLast?_eq_some_iff.mp last
      cases marked.symm.trans (Text.beforeLast?_eq_some.mpr rfl)
    · rintro (⟨number, finite, -⟩ | ⟨number, finite⟩)
      · exact ⟨_, number, finite, rfl⟩
      · cases marked.symm.trans (Text.beforeLast?_eq_some.mpr rfl)

theorem ofArguments?_eq_some {text : List Char} : ofArguments? number? text = some c ↔
    ∃ inside, text = inside ++ [')'] ∧
      Listed number? (Text.partsBetween isArgumentSeparator inside) c := by
  unfold ofArguments?
  simp only [Option.bind_eq_bind, Option.bind_eq_some_iff, Text.beforeLast?_eq_some,
    Text.pieces_eq_partsBetween]
  refine exists_congr fun inside => and_congr_right fun _ => ?_
  generalize Text.partsBetween isArgumentSeparator inside = pieces
  constructor
  · intro read
    split at read
    · simp only [Option.bind_eq_some_iff, read?_eq_some] at read
      obtain ⟨r, first, g, second, b, third, made⟩ := read
      cases made
      exact .three first second third
    · simp only [Option.bind_eq_some_iff, read?_eq_some] at read
      obtain ⟨r, first, g, second, b, third, a, fourth, made⟩ := read
      cases made
      exact .four first second third fourth
    · cases read
  · rintro (⟨first, second, third⟩ | ⟨first, second, third, fourth⟩)
    · simp only [read?_eq_some.mpr first, read?_eq_some.mpr second, read?_eq_some.mpr third,
        Option.bind_some]
      rfl
    · simp only [read?_eq_some.mpr first, read?_eq_some.mpr second, read?_eq_some.mpr third,
        read?_eq_some.mpr fourth, Option.bind_some]
      rfl

theorem isArgumentSeparator_toLower (d : Char) :
    isArgumentSeparator d.toLower = isArgumentSeparator d := by
  by_cases capital : 'A' ≤ d ∧ d ≤ 'Z'
  · exact of_between (fun d => isArgumentSeparator d.toLower = isArgumentSeparator d) (by decide)
      capital
  · have unchanged : d.toLower = d := dif_neg capital
    rw [unchanged]

theorem ofArguments?_map_toLower : ofArguments? number? (rest.map Char.toLower) = some c ↔
    ∃ inside, rest = inside ++ [')'] ∧ Listed number? (piecesOf inside) c := by
  rw [ofArguments?_eq_some]
  constructor
  · rintro ⟨lowered, parts, listed⟩
    obtain ⟨inside, bracket, rfl, rfl, bracket_eq⟩ := List.map_eq_append_iff.mp parts
    obtain rfl := (map_toLower_eq_iff (List.forall_mem_singleton.mpr rfl)).mp bracket_eq
    rw [Text.partsBetween_map isArgumentSeparator_toLower] at listed
    exact ⟨inside, rfl, listed⟩
  · rintro ⟨inside, rfl, listed⟩
    refine ⟨inside.map Char.toLower, List.map_append, ?_⟩
    rwa [Text.partsBetween_map isArgumentSeparator_toLower]

theorem afterFunctionName?_eq_some {text : List Char} : afterFunctionName? text = some lowered ↔
    ∃ rest, FunctionForm text rest ∧ lowered = rest.map Char.toLower := by
  constructor
  · intro found
    have named (name lowered : List Char) (same : text.map Char.toLower = name ++ '(' :: lowered) :
        ∃ front rest, text = front ++ '(' :: rest ∧ front.map Char.toLower = name ∧
          lowered = rest.map Char.toLower := by
      obtain ⟨front, behind, rfl, name_eq, same⟩ := List.map_eq_append_iff.mp same
      obtain ⟨bracket, rest, rfl, bracket_eq, rest_eq⟩ := List.map_eq_cons_iff.mp same
      obtain rfl := (toLower_eq_iff rfl).mp bracket_eq
      exact ⟨front, rest, rfl, name_eq, rest_eq.symm⟩
    unfold afterFunctionName? at found
    split at found
    · rename_i same
      cases found
      obtain ⟨front, rest, rfl, name_eq, rfl⟩ := named ['r', 'g', 'b', 'a'] _ same
      exact ⟨rest, ⟨front, rfl, .inr name_eq⟩, rfl⟩
    · rename_i same
      cases found
      obtain ⟨front, rest, rfl, name_eq, rfl⟩ := named ['r', 'g', 'b'] _ same
      exact ⟨rest, ⟨front, rfl, .inl name_eq⟩, rfl⟩
    · cases found
  · rintro ⟨rest, ⟨name, rfl, name_eq | name_eq⟩, rfl⟩
    · unfold afterFunctionName?
      rw [List.map_append, name_eq]
      rfl
    · unfold afterFunctionName?
      rw [List.map_append, name_eq]
      rfl

theorem FunctionForm.bracket_mem {text : List Char} (form : FunctionForm text rest) :
    '(' ∈ text := by
  obtain ⟨name, rfl, -⟩ := form
  simp

/-- A function does not begin with a number sign. -/
theorem FunctionForm.ne_hex {text digits : List Char} (form : FunctionForm text rest) :
    text ≠ '#' :: digits := by
  obtain ⟨name, rfl, named⟩ := form
  cases name with
  | nil => simp at named
  | cons d more =>
    intro same
    obtain rfl : d = '#' := (List.cons.inj same).1
    rcases named with named | named <;> exact absurd (List.cons.inj named).1 (by decide)

section Parse

variable {text : String}

theorem parseBy_of_function (noted : FunctionNotation text rest) :
    parseBy number? text = (ofArguments? number? (rest.map Char.toLower)).elim
      (.error (.invalidFunction (String.ofList (Text.trim text.toList)))) .ok := by
  have named := afterFunctionName?_eq_some.mpr ⟨rest, noted, rfl⟩
  unfold parseBy ofTrimmed
  split
  · rename_i digits hex
    exact absurd hex noted.ne_hex
  · simp only [named]
    cases ofArguments? number? (rest.map Char.toLower) <;> rfl

theorem parseBy_function_eq_ok (noted : FunctionNotation text rest) :
    parseBy number? text = .ok c ↔
      ∃ inside, rest = inside ++ [')'] ∧ Listed number? (piecesOf inside) c := by
  rw [← ofArguments?_map_toLower, parseBy_of_function noted]
  cases ofArguments? number? (rest.map Char.toLower) <;> simp

theorem parseBy_function_error (noted : FunctionNotation text rest) {error : ColorError}
    (failed : parseBy number? text = .error error) :
    error = .invalidFunction (String.ofList (Text.trim text.toList)) := by
  rw [parseBy_of_function noted] at failed
  cases read : ofArguments? number? (rest.map Char.toLower) with
  | some color =>
    rw [read] at failed
    cases failed
  | none =>
    rw [read] at failed
    exact (Except.error.inj failed).symm

end Parse

theorem exists_listed_iff : (∃ c, Listed number? pieces c) ↔ Accepted number? pieces := by
  constructor
  · rintro ⟨c, ⟨first, second, third⟩ | ⟨first, second, third, fourth⟩⟩
    · exact ⟨.inl rfl, by simpa using ⟨⟨_, first⟩, ⟨_, second⟩, ⟨_, third⟩⟩⟩
    · exact ⟨.inr rfl, by simpa using ⟨⟨_, first⟩, ⟨_, second⟩, ⟨_, third⟩, ⟨_, fourth⟩⟩⟩
  · rintro ⟨three | four, spelled⟩
    · match pieces, three with
      | [_, _, _], _ =>
        simp only [List.forall_mem_cons] at spelled
        obtain ⟨⟨r, first⟩, ⟨g, second⟩, ⟨b, third⟩, -⟩ := spelled
        exact ⟨_, .three first second third⟩
    · match pieces, four with
      | [_, _, _, _], _ =>
        simp only [List.forall_mem_cons] at spelled
        obtain ⟨⟨r, first⟩, ⟨g, second⟩, ⟨b, third⟩, ⟨a, fourth⟩, -⟩ := spelled
        exact ⟨_, .four first second third fourth⟩

theorem Argument.Spelled.exists_denotes (spelled : a.Spelled number? word) :
    ∃ x, Binary64.Denotes a.value x := by
  apply Binary64.exists_denotes_of_isFinite
  cases spelled <;> assumption

/-- Whatever is read as a number, a color function is accepted just if it ends with a bracket and
the pieces inside are three or four finite numbers, each with a percent sign or without one.
Otherwise it is malformed. The color is that of the pieces: the separators do not matter, nor the
name, nor the case of letters. Each byte is the number of its piece, held within its range and
rounded, unless that is about a half. -/
theorem function_text_decided (number? : List Char → Option Float) (text : String)
    (rest : List Char) (noted : FunctionNotation text rest) :
    (∀ c, parseBy number? text = .ok c ↔
      ∃ inside, rest = inside ++ [')'] ∧ Listed number? (piecesOf inside) c) ∧
    ((∃ c, parseBy number? text = .ok c) ↔
      ∃ inside, rest = inside ++ [')'] ∧ Accepted number? (piecesOf inside)) ∧
    (∀ error, parseBy number? text = .error error →
      error = .invalidFunction (String.ofList (Text.trim text.toList))) ∧
    (∀ other inside inside', rest = inside ++ [')'] →
      FunctionNotation other (inside' ++ [')']) → piecesOf inside = piecesOf inside' →
      ∀ c, parseBy number? text = .ok c ↔ parseBy number? other = .ok c) ∧
    ∀ (a : Argument) (word : List Char), a.Spelled number? word →
      ∃ x, Binary64.Denotes a.value x ∧ a.Bytes x := by
  have listed_iff {text : String} {inside : List Char}
      (noted : FunctionNotation text (inside ++ [')'])) (c : Rgba) :
      parseBy number? text = .ok c ↔ Listed number? (piecesOf inside) c := by
    rw [parseBy_function_eq_ok noted]
    simp
  refine ⟨fun c => parseBy_function_eq_ok noted, ?_, fun error => parseBy_function_error noted,
    ?_, ?_⟩
  · simp only [parseBy_function_eq_ok noted, ← exists_listed_iff]
    tauto
  · rintro other inside inside' rfl noted' same c
    rw [listed_iff noted, listed_iff noted', same]
  · intro a word spelled
    obtain ⟨x, denotes⟩ := spelled.exists_denotes
    exact ⟨x, denotes, Argument.bytes_of_denotes denotes⟩

/-- Arguments that are out of range, with mixed separators. -/
def mixedFunction : String := " RGBA(3E2, -5 0/50%)"

theorem function_text_mixed :
    FunctionNotation mixedFunction ("3E2, -5 0/50%".toList ++ [')']) ∧
      parse mixedFunction = .ok ⟨255, 0, 0, 128⟩ ∧
      parse "rgb(3e2 -5,,0 50%)" = .ok ⟨255, 0, 0, 128⟩ ∧
      Accepted Decimal.Numeral.float? ["3e2".toList, "-5".toList, "0".toList, "50%".toList] ∧
      parse "rgb(1, 2)" = .error (.invalidFunction "rgb(1, 2)") ∧
      ∃ a x, Argument.Spelled Decimal.Numeral.float? a "50%".toList ∧
        Binary64.Denotes a.value x ∧ a.Bytes x := by
  have noted : FunctionNotation mixedFunction ("3E2, -5 0/50%".toList ++ [')']) :=
    ⟨"RGBA".toList, by decide, by decide⟩
  have noted' : FunctionNotation "rgb(3e2 -5,,0 50%)" ("3e2 -5,,0 50%".toList ++ [')']) :=
    ⟨"rgb".toList, by decide, by decide⟩
  have short : FunctionNotation "rgb(1, 2)" "1, 2)".toList := ⟨"rgb".toList, by decide, by decide⟩
  obtain ⟨-, accepted_iff, -, same, bytes⟩ :=
    function_text_decided Decimal.Numeral.float? _ _ noted
  have read : parse mixedFunction = .ok ⟨255, 0, 0, 128⟩ := by decide +kernel
  obtain ⟨inside, ends, accepted⟩ := accepted_iff.mp ⟨_, read⟩
  obtain rfl := (List.append_cancel_right ends)
  have parted : piecesOf "3E2, -5 0/50%".toList =
      ["3e2".toList, "-5".toList, "0".toList, "50%".toList] := by decide
  rw [parted] at accepted
  refine ⟨noted, read, ?_, accepted, ?_, ?_⟩
  · exact (same _ _ _ rfl noted' (by decide) _).mp read
  · cases failed : parse "rgb(1, 2)" with
    | error error =>
      rw [(function_text_decided Decimal.Numeral.float? _ _ short).2.2.1 error failed]
      rfl
    | ok c =>
      have accepted : (parse "rgb(1, 2)").isOk = false := by decide +kernel
      rw [failed] at accepted
      cases accepted
  · obtain ⟨a, spelled⟩ := accepted.spelled "50%".toList (by decide)
    obtain ⟨x, denotes, made⟩ := bytes a _ spelled
    exact ⟨a, x, spelled, denotes, made⟩

/-- Half of a byte is a half, 127.5, and what is computed of 50 percent is less than that. So a
channel is rounded down, though the same percentage of an alpha is rounded up. -/
theorem function_text_halfPercent :
    parse "rgb(50%, 50%, 50%)" = .ok ⟨127, 127, 127, 255⟩ ∧
      parse "rgba(0, 0, 0, 50%)" = .ok ⟨0, 0, 0, 128⟩ ∧
      ¬ ∀ (number? : List Char → Option Float) (text : String) (inside word : List Char)
        (rest : List (List Char)) (c : Rgba) (a : Argument) (x : ℝ),
          FunctionNotation text (inside ++ [')']) → piecesOf inside = word :: rest →
          a.Spelled number? word → Binary64.Denotes a.value x → parseBy number? text = .ok c →
            (c.red.toNat : ℤ) = round (a.exactChannel x) := by
  have read : parse "rgb(50%, 50%, 50%)" = .ok ⟨127, 127, 127, 255⟩ := by decide +kernel
  refine ⟨read, by decide +kernel, fun nearest => ?_⟩
  have decoded : Binary64.decode (Decimal.Numeral.value ⟨false, ['5', '0'], [], 0⟩) =
      .finite false (50 * 2 ^ 47) (-47) := by decide +kernel
  have denotes := Binary64.denotes_of_decode (x := 50) decoded (by norm_num [Binary64.signed])
  have number : Decimal.Numeral.float? ['5', '0'] =
      some (Decimal.Numeral.value ⟨false, ['5', '0'], [], 0⟩) := rfl
  have byte := nearest _ _ "50%, 50%, 50%".toList "50%".toList ["50%".toList, "50%".toList] _ _ 50
    ⟨"rgb".toList, by decide, by decide⟩ (by decide) (.percent number denotes.isFinite) denotes read
  have exact (value : Float) : round (Argument.exactChannel ⟨value, true⟩ 50) = 128 := by
    rw [Argument.exactChannel_eq, held, round_eq_iff]
    norm_num
  exact absurd (byte.trans (exact _)) (by decide)

end Rgba
end VectorPaint
