import VectorPaint.Proofs.PathData.Locality

/-!
What a fault says about the text. A fault is placed where a letter, a number or a flag should begin,
after the separators in front of it, and its cause tells what the text has there instead. A number
that was read before may be followed by a letter that begins no exponent, so the words that are read
here are less than the operands of a sentence.
-/
namespace VectorPaint.PathData

open Decimal Numeral

/-- The word of an operand at the front of a text. A number takes all that spells one. -/
inductive Word : Kind → List Char → List Char → Prop where
  | number {n : Numeral} {word text : List Char} : Spelled n word → word <+: text →
      Longest word text → n.value.isFinite = true → Word .number word text
  | zero {text : List Char} : Word .flag ['0'] ('0' :: text)
  | one {text : List Char} : Word .flag ['1'] ('1' :: text)

/-- Operands of these kinds at the front of a text, and the text after them. -/
inductive Words : List Kind → List Char → List Char → Prop where
  | nil {text : List Char} : Words [] text text
  | cons {kind : Kind} {kinds : List Kind} {gap word middle rest : List Char} : Separators gap →
      Word kind word (word ++ middle) → Words kinds middle rest →
      Words (kind :: kinds) (gap ++ (word ++ middle)) rest

/-- No operand of the kind is at the front of the text, because of this. -/
inductive Malformed : Kind → Cause → List Char → Prop where
  | numberMissing : Malformed .number .numberMissing []
  | numberExpected {text : List Char} : text ≠ [] →
      (∀ n word, Spelled n word → ¬ word <+: text) → Malformed .number .numberExpected text
  /-- A number without an exponent, and a letter that begins none. -/
  | malformedExponent {negative : Bool} {whole fraction sign point rest : List Char} {c : Char} :
      SignSpelled negative sign → AllDigits whole → FractionSpelled fraction point →
      whole ≠ [] ∨ fraction ≠ [] → c = 'e' ∨ c = 'E' →
      (∀ exponent power, ExponentSpelled exponent power → power <+: c :: rest → power = []) →
      Malformed .number .malformedExponent (sign ++ (whole ++ (point ++ c :: rest)))
  | numberOutOfRange {n : Numeral} {word text : List Char} : Spelled n word → word <+: text →
      Longest word text → n.value.isFinite = false → Malformed .number .numberOutOfRange text
  | flagMissing : Malformed .flag .flagMissing []
  | flagExpected {c : Char} {text : List Char} : c ≠ '0' → c ≠ '1' →
      Malformed .flag .flagExpected (c :: text)

/-- No group begins here, because of this; there may have been a letter before. -/
inductive NoLetter (previous : Option Letter) : Cause → Char → Prop where
  | unsupportedCommand {c : Char} : c ∈ ['B', 'b', 'R', 'r'] →
      NoLetter previous (.unsupportedCommand c) c
  | unknownCommand {c : Char} : c.isAlpha = true → (∀ letter : Letter, letter.char ≠ c) →
      c ∉ ['B', 'b', 'R', 'r'] → NoLetter previous (.unknownCommand c) c
  /-- The first letter of all does not move, or there is none. -/
  | movetoExpected {c : Char} : previous = none → c ≠ 'M' → c ≠ 'm' →
      (c.isAlpha = true → ∃ letter : Letter, letter.char = c) →
      NoLetter previous .movetoExpected c
  /-- A chain was closed, and no letter follows. -/
  | commandExpected {c : Char} {last : Letter} : previous = some last → Closes last.char →
      c.isAlpha = false → NoLetter previous .commandExpected c

/-- A letter that begins a group, written or repeated, and the text after it. -/
inductive Begins (previous : Option Letter) : Letter → List Char → List Char → Prop where
  | written {letter : Letter} {rest : List Char} : (previous = none → letter.verb = .move) →
      Begins previous letter (letter.char :: rest) rest
  | repeated {last letter : Letter} {c : Char} {rest : List Char} : previous = some last →
      last.repeated? = some letter → c.isAlpha = false →
      Begins previous letter (c :: rest) (c :: rest)

/-- The text after the separators at its front. -/
structure AfterGap (text place : List Char) : Prop where
  parts : ∃ gap, text = gap ++ place ∧ Separators gap
  stop : Ahead (isSeparator · = false) place

/-- No group begins at the front of the text, because of something at this place in it: a letter
that does not begin one, or, after the letter and some of the operands, an operand that is none. -/
inductive Stuck (previous : Option Letter) (text : List Char) : Cause → List Char → Prop where
  | letter {c : Char} {rest : List Char} {cause : Cause} : AfterGap text (c :: rest) →
      NoLetter previous cause c → Stuck previous text cause (c :: rest)
  | operand {letter : Letter} {start left middle place : List Char} {kind : Kind}
      {before after : List Kind} {cause : Cause} : AfterGap text start →
      Begins previous letter start left → letter.verb.kinds = before ++ kind :: after →
      Words before left middle → AfterGap middle place → Malformed kind cause place →
      Stuck previous text cause place

section Number

variable {text rest word : List Char} {exponent : Int} {n : Numeral} {fault : Fault}

/-- Reading finds the digits of a number that is spelled at the front of a text. -/
theorem not_prefix_of_noDigits (failed : Numeral.read text = .error .noDigits)
    (spelled : Spelled n word) : ¬ word <+: text := by
  rintro ⟨more, rfl⟩
  obtain @⟨negative, whole, fraction, exponent, sign, point, power, signed, all, fractional,
    some_digit, raised⟩ := spelled
  have unsigned := unsigned_of_parts (power ++ more) all fractional some_digit
  simp only [List.append_assoc, Numeral.read, takeSign_append signed unsigned] at failed
  split at failed
  · rename_i empty
    simp only [Bool.and_eq_true, List.isEmpty_iff, List.takeWhile_append_of_pos all,
      List.append_eq_nil_iff] at empty
    obtain ⟨⟨rfl, -⟩, empty⟩ := empty
    cases fractional with
    | none => simp at some_digit
    | point all' =>
      simp [takeFraction, List.takeWhile_append_of_pos all'] at empty
      simp [empty] at some_digit
  · split at failed <;> cases failed

/-- Reading finds the digits of an exponent. -/
theorem eq_nil_of_takeExponent {c : Char} {power : List Char}
    (failed : takeExponent rest = none) (raised : ExponentSpelled exponent power)
    (starts : power <+: c :: rest) : power = [] := by
  obtain ⟨more, same⟩ := starts
  cases raised with
  | none => rfl
  | @letter _ negative sign digits begins signed all some_digit =>
    simp only [List.cons_append, List.append_assoc, List.cons.injEq] at same
    obtain ⟨rfl, rfl⟩ := same
    have unsigned := unsigned_of_parts more all .none (.inl some_digit)
    rw [List.nil_append] at unsigned
    simp [takeExponent, takeSign_append signed unsigned, List.takeWhile_append_of_pos all,
      some_digit] at failed

theorem malformed_of_noExponentDigits (failed : Numeral.read text = .error .noExponentDigits) :
    Malformed .number .malformedExponent text := by
  obtain ⟨sign, signless, signed⟩ := takeSign_spelled text
  obtain ⟨point, pointless, fractional, -, -⟩ :=
    takeFraction_spelled _ (ahead_dropWhile Char.isDigit (takeSign text).2)
  simp only [Numeral.read] at failed
  split at failed
  · cases failed
  · rename_i some_digit
    have parts := List.takeWhile_append_dropWhile (p := Char.isDigit) (l := (takeSign text).2)
    rw [pointless] at parts
    rw [← parts] at signless
    split at failed
    · rename_i failed'
      rw [signless]
      rw [Bool.and_eq_true, List.isEmpty_iff, List.isEmpty_iff, Decidable.not_and_iff_not_or_not]
        at some_digit
      unfold takeOptionalExponent at failed'
      split at failed'
      · rename_i rest same
        rw [same]
        exact .malformedExponent signed (allDigits_takeWhile _) fractional some_digit (.inl rfl)
          fun _ _ raised => eq_nil_of_takeExponent failed' raised
      · rename_i rest same
        rw [same]
        exact .malformedExponent signed (allDigits_takeWhile _) fractional some_digit (.inr rfl)
          fun _ _ raised => eq_nil_of_takeExponent failed' raised
      · cases failed'
    · cases failed

theorem Malformed.eq_nil_iff {kind : Kind} {cause : Cause}
    (malformed : Malformed kind cause text) :
    text = [] ↔ cause = .numberMissing ∨ cause = .flagMissing := by
  cases malformed with
  | numberMissing => simp
  | numberExpected some_text => simp [some_text]
  | malformedExponent => simp
  | numberOutOfRange spelled starts =>
    obtain ⟨c, more, rfl, -⟩ := spelled.begins
    obtain ⟨rest, rfl⟩ := starts
    simp
  | flagMissing => simp
  | flagExpected => simp

end Number

section Reader

variable {kind : Kind} {kinds : List Kind} {text rest : List Char} {value : Value}
  {values : Values} {fault : Fault}

theorem malformed_of_number (failed : number text = .error fault) :
    fault.rest = skipSeparators text ∧ Malformed .number fault.cause fault.rest := by
  simp only [number_apply] at failed
  split at failed
  · rename_i empty
    cases failed
    exact ⟨rfl, empty ▸ .numberMissing⟩
  · rename_i c tail found
    have some_text : skipSeparators text ≠ [] := by simp [found]
    split at failed
    · rename_i failed'
      cases failed
      exact ⟨rfl, .numberExpected some_text fun _ _ => not_prefix_of_noDigits failed'⟩
    · rename_i failed'
      cases failed
      exact ⟨rfl, malformed_of_noExponentDigits failed'⟩
    · rename_i n left taken
      split at failed
      · cases failed
      · rename_i infinite
        cases failed
        obtain ⟨word, parts, spelled, longest⟩ := spelled_of_read taken
        exact ⟨rfl, .numberOutOfRange spelled ⟨left, parts.symm⟩ longest (by simpa using infinite)⟩

theorem malformed_of_flag (failed : flag text = .error fault) :
    fault.rest = skipSeparators text ∧ Malformed .flag fault.cause fault.rest := by
  simp only [flag] at failed
  split at failed
  · cases failed
  · cases failed
  · rename_i empty
    cases failed
    exact ⟨empty.symm, .flagMissing⟩
  · rename_i zero one some_text
    cases failed
    refine ⟨rfl, ?_⟩
    cases found : skipSeparators text with
    | nil => exact absurd found some_text
    | cons c rest =>
      refine .flagExpected ?_ ?_
      · rintro rfl
        exact zero rest found
      · rintro rfl
        exact one rest found

theorem afterGap_skipSeparators (text : List Char) : AfterGap text (skipSeparators text) where
  parts := skipSeparators_spelled text
  stop := ahead_dropWhile isSeparator text

theorem word_of_number {x : Float} (done : number text = .ok (x, rest)) :
    ∃ word, skipSeparators text = word ++ rest ∧ Word .number word (word ++ rest) := by
  obtain ⟨n, word, parts, spelled, longest, finite, -⟩ := number_spelled done
  exact ⟨word, parts, .number spelled (List.prefix_append ..) longest finite⟩

theorem word_of_flag {set : Bool} (done : flag text = .ok (set, rest)) :
    ∃ word, skipSeparators text = word ++ rest ∧ Word .flag word (word ++ rest) := by
  refine ⟨[if set then '1' else '0'], flag_spelled done, ?_⟩
  cases set with
  | false => exact .zero
  | true => exact .one

/-- An operand is read where its word is. -/
theorem word_of_operand (done : operand kind text = .ok (value, rest)) :
    ∃ word, skipSeparators text = word ++ rest ∧ Word kind word (word ++ rest) := by
  cases kind with
  | number =>
    obtain ⟨x, taken, -⟩ := Reader.map_eq_ok.mp done
    exact word_of_number taken
  | flag =>
    obtain ⟨set, taken, -⟩ := Reader.map_eq_ok.mp done
    exact word_of_flag taken

theorem Reader.map_eq_error {β γ : Type} {read : Reader β} {f : β → γ} :
    (f <$> read) text = .error fault ↔ read text = .error fault := by
  change (read text >>= fun p => pure (f p.1, p.2)) = _ ↔ _
  cases read text with
  | error other => simp [bind, Except.bind]
  | ok found => exact ⟨nofun, nofun⟩

theorem malformed_of_operand (failed : operand kind text = .error fault) :
    fault.rest = skipSeparators text ∧ Malformed kind fault.cause fault.rest := by
  cases kind with
  | number => exact malformed_of_number (Reader.map_eq_error.mp failed)
  | flag => exact malformed_of_flag (Reader.map_eq_error.mp failed)

theorem words_cons (done : operand kind text = .ok (value, rest)) {middle : List Char}
    (more : Words kinds rest middle) : Words (kind :: kinds) text middle := by
  obtain ⟨word, parts, spelled⟩ := word_of_operand done
  obtain ⟨gap, spaced, separated⟩ := skipSeparators_spelled text
  rw [spaced, parts]
  exact .cons separated spelled more

theorem Words.suffix (words : Words kinds text rest) : rest <:+ text := by
  induction words with
  | nil => exact List.suffix_rfl
  | cons _ _ _ ih =>
    rw [← List.append_assoc]
    exact ih.trans (List.suffix_append ..)

/-- Operands fail to be read at one of them, after those before it. -/
theorem stuck_of_operandGroup (failed : operandGroup kinds text = .error fault) :
    ∃ before kind after middle, kinds = before ++ kind :: after ∧ Words before text middle ∧
      AfterGap middle fault.rest ∧ Malformed kind fault.cause fault.rest := by
  induction kinds generalizing text with
  | nil => cases failed
  | cons kind kinds ih =>
    rw [operandGroup] at failed
    rcases Reader.bind_eq_error failed with failed | ⟨value, left, done, failed⟩
    · obtain ⟨same, malformed⟩ := malformed_of_operand failed
      exact ⟨[], kind, kinds, text, rfl, .nil, same ▸ afterGap_skipSeparators text, malformed⟩
    · rcases Reader.bind_eq_error failed with failed | ⟨values, left', -, failed⟩
      · obtain ⟨before, other, after, middle, rfl, words, gap, malformed⟩ := ih failed
        exact ⟨kind :: before, other, after, middle, rfl, words_cons done words, gap, malformed⟩
      · cases failed

end Reader

section Step

variable {previous : Option Letter} {c : Char} {text rest left : List Char} {fault : Fault}

theorem isUnsupported_iff : isUnsupported c = true ↔ c ∈ ['B', 'b', 'R', 'r'] := by
  simp [isUnsupported, or_assoc]

theorem begins_of_letter {letter : Letter}
    (begins : PathData.letter previous c rest = .ok (letter, left)) :
    Begins previous letter (c :: rest) left := by
  rcases letter_eq_ok.mp begins with ⟨rfl, rfl, allowed⟩ | ⟨small, rfl, last, same, repeats⟩
  · exact .written allowed
  · exact .repeated same repeats small

theorem noLetter_of_letter (failed : letter previous c rest = .error fault) :
    NoLetter previous fault.cause c := by
  unfold letter at failed
  split at failed
  · rename_i found
    rw [ofChar?_eq_some] at found
    subst found
    split at failed
    · rename_i bad
      cases failed
      refine .movetoExpected bad.1 ?_ ?_ fun _ => ⟨_, rfl⟩
      · exact fun same => bad.2 (moves_char.mp (.inl same))
      · exact fun same => bad.2 (moves_char.mp (.inr same))
    · cases failed
  · rename_i unknown
    have unlike (letter : Letter) : letter.char ≠ c := by
      rintro rfl
      simp at unknown
    split at failed
    · rename_i unsupported
      cases failed
      exact .unsupportedCommand (isUnsupported_iff.mp unsupported)
    · rename_i supported
      rw [isUnsupported_iff] at supported
      split at failed
      · rename_i alphabetic
        cases failed
        exact .unknownCommand alphabetic unlike supported
      · rename_i small
        split at failed
        · cases failed
          refine .movetoExpected rfl ?_ ?_ (absurd · small)
          · rintro rfl
            exact small rfl
          · rintro rfl
            exact small rfl
        · rename_i last
          split at failed
          · rename_i closes
            cases failed
            refine .commandExpected rfl (closes_char.mpr ?_) (by simpa using small)
            by_contra draws
            obtain ⟨other, repeats, -⟩ := exists_repeated? draws
            rw [closes] at repeats
            cases repeats
          · cases failed

/-- A step fails where no group begins. -/
theorem stuck_of_next? (failed : next? previous text = .error fault) :
    Stuck previous text fault.cause fault.rest := by
  have gap := afterGap_skipSeparators text
  simp only [next?] at failed
  split at failed
  · cases failed
  · rename_i c rest found
    rw [found] at gap
    split at failed
    · rename_i failed'
      cases failed
      rw [rest_of_letter_error failed']
      exact .letter gap (noLetter_of_letter failed')
    · rename_i begins
      split at failed
      · rename_i failed'
        cases failed
        have group := Reader.map_eq_error (f := Operands.values).mpr failed'
        rw [← operandGroup_eq] at group
        obtain ⟨before, kind, after, middle, kinds_eq, words, gap', malformed⟩ :=
          stuck_of_operandGroup group
        exact .operand gap (begins_of_letter begins) kinds_eq words gap' malformed
      · cases failed

/-- Only where the text ends something is said to be missing. -/
theorem Stuck.eq_nil_iff {cause : Cause} {place : List Char}
    (stuck : Stuck previous text cause place) :
    place = [] ↔ cause = .numberMissing ∨ cause = .flagMissing := by
  cases stuck with
  | letter _ none => cases none <;> simp
  | operand _ _ _ _ _ malformed => exact malformed.eq_nil_iff

end Step

end VectorPaint.PathData
