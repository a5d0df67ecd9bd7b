import VectorPaint.Proofs.PathData.Operands

/-!
Reading and the language agree on clauses. A step of the reader either takes a letter and its first
group, or it takes one more group of the clause that it is in.
-/
namespace VectorPaint.PathData

open Decimal Numeral

section Letter

def Letter.char (letter : Letter) : Char :=
  match letter.verb, letter.relative with
  | .move, false => 'M'
  | .move, true => 'm'
  | .line, false => 'L'
  | .line, true => 'l'
  | .horizontal, false => 'H'
  | .horizontal, true => 'h'
  | .vertical, false => 'V'
  | .vertical, true => 'v'
  | .cubic, false => 'C'
  | .cubic, true => 'c'
  | .smoothCubic, false => 'S'
  | .smoothCubic, true => 's'
  | .quadratic, false => 'Q'
  | .quadratic, true => 'q'
  | .smoothQuadratic, false => 'T'
  | .smoothQuadratic, true => 't'
  | .arc, false => 'A'
  | .arc, true => 'a'
  | .close, false => 'Z'
  | .close, true => 'z'

variable {letter last : Letter} {c : Char}

theorem ofChar?_eq_some : Letter.ofChar? c = some letter ↔ letter.char = c := by
  constructor
  · intro found
    unfold Letter.ofChar? at found
    split at found <;> cases found <;> rfl
  · rintro rfl
    obtain ⟨verb, relative⟩ := letter
    cases verb <;> cases relative <;> rfl

@[simp]
theorem ofChar?_char (letter : Letter) : Letter.ofChar? letter.char = some letter :=
  ofChar?_eq_some.mpr rfl

theorem isAlpha_char (letter : Letter) : letter.char.isAlpha = true := by
  obtain ⟨verb, relative⟩ := letter
  cases verb <;> cases relative <;> rfl

theorem isSeparator_char (letter : Letter) : isSeparator letter.char = false := by
  obtain ⟨verb, relative⟩ := letter
  cases verb <;> cases relative <;> rfl

theorem char_ne_exponent (letter : Letter) : letter.char ≠ 'e' ∧ letter.char ≠ 'E' := by
  obtain ⟨verb, relative⟩ := letter
  cases verb <;> cases relative <;> decide

theorem closes_char : Closes letter.char ↔ letter.verb = .close := by
  obtain ⟨verb, relative⟩ := letter
  cases verb <;> cases relative <;> simp [Closes, Letter.char]

theorem moves_char : letter.char = 'M' ∨ letter.char = 'm' ↔ letter.verb = .move := by
  obtain ⟨verb, relative⟩ := letter
  cases verb <;> cases relative <;> simp [Letter.char]

theorem signature_char (draws : letter.verb ≠ .close) :
    signature letter.char = some letter.verb.kinds := by
  obtain ⟨verb, relative⟩ := letter
  cases verb <;> cases relative <;> first | rfl | exact absurd rfl draws

/-- A letter with a signature is one that draws. -/
theorem exists_char_of_signature {kinds : List Kind} (belongs : signature c = some kinds) :
    ∃ letter : Letter, letter.char = c ∧ letter.verb ≠ .close ∧ letter.verb.kinds = kinds := by
  have known : ∃ letter, Letter.ofChar? c = some letter := by
    unfold signature at belongs
    split at belongs <;> first | exact ⟨_, rfl⟩ | cases belongs
  obtain ⟨letter, known⟩ := known
  rw [ofChar?_eq_some] at known
  subst known
  have draws : letter.verb ≠ .close := by
    intro closes
    rw [signature_of_closes (closes_char.mpr closes)] at belongs
    cases belongs
  rw [signature_char draws] at belongs
  exact ⟨letter, rfl, draws, Option.some.inj belongs⟩

theorem exists_char_of_closes (closes : Closes c) :
    ∃ letter : Letter, letter.char = c ∧ letter.verb = .close := by
  rcases closes with rfl | rfl
  · exact ⟨⟨.close, false⟩, rfl, rfl⟩
  · exact ⟨⟨.close, true⟩, rfl, rfl⟩

/-- The letter that a further group of a clause is read with. -/
theorem exists_repeated? (draws : last.verb ≠ .close) :
    ∃ letter, last.repeated? = some letter ∧ letter.char = continued last.char ∧
      letter.verb.kinds = last.verb.kinds ∧ letter.verb ≠ .close ∧
      continued letter.char = letter.char := by
  obtain ⟨verb, relative⟩ := last
  cases verb with
  | close => exact absurd rfl draws
  | _ => cases relative <;> exact ⟨_, rfl, rfl, rfl, by decide, rfl⟩

theorem repeated?_of_closes (closes : last.verb = .close) : last.repeated? = none := by
  simp [Letter.repeated?, closes]

end Letter

section Step

variable {previous : Option Letter} {letter last : Letter} {c : Char} {kinds : List Kind}
  {values : Values} {gap text rest left : List Char} {step : Step}

private theorem ofChar?_of_isAlpha (small : c.isAlpha = false) : Letter.ofChar? c = none := by
  cases found : Letter.ofChar? c with
  | none => rfl
  | some letter =>
    rw [ofChar?_eq_some] at found
    subst found
    rw [isAlpha_char] at small
    cases small

private theorem isUnsupported_of_isAlpha (small : c.isAlpha = false) :
    isUnsupported c = false := by
  by_contra found
  simp only [isUnsupported, Bool.not_eq_false, Bool.or_eq_true, beq_iff_eq] at found
  rcases found with ((rfl | rfl) | rfl) | rfl <;> cases small

/-- The letter of a group is either written or repeated. -/
theorem letter_eq_ok : PathData.letter previous c rest = .ok (letter, left) ↔
    (letter.char = c ∧ left = rest ∧ (previous = none → letter.verb = .move)) ∨
    (c.isAlpha = false ∧ left = c :: rest ∧
      ∃ last, previous = some last ∧ last.repeated? = some letter) := by
  constructor
  · intro done
    unfold PathData.letter at done
    split at done
    · rename_i found
      rw [ofChar?_eq_some] at found
      split at done
      · cases done
      · rename_i allowed
        cases done
        refine .inl ⟨found, rfl, fun first => ?_⟩
        by_contra moves
        exact allowed ⟨first, moves⟩
    · split at done
      · cases done
      · split at done
        · cases done
        · rename_i small
          split at done
          · cases done
          · split at done
            · cases done
            · rename_i last _ _ repeats
              cases done
              exact .inr ⟨by simpa using small, rfl, last, rfl, repeats⟩
  · rintro (⟨rfl, rfl, allowed⟩ | ⟨small, rfl, last, rfl, repeats⟩)
    · have passes : ¬ (previous = none ∧ letter.verb ≠ .move) := by
        rintro ⟨first, moves⟩
        exact moves (allowed first)
      simp only [PathData.letter, ofChar?_char, passes, if_false]
    · simp [PathData.letter, ofChar?_of_isAlpha small, isUnsupported_of_isAlpha small, small,
        repeats]

theorem next?_eq_none (done : next? previous text = .ok none) : Separators text := by
  obtain ⟨gap, parts, separated⟩ := skipSeparators_spelled text
  simp only [next?] at done
  split at done
  · rename_i empty
    rw [parts, empty, List.append_nil]
    exact separated
  · split at done
    · cases done
    · split at done <;> cases done

theorem next?_of_separators (separated : Separators text) : next? previous text = .ok none := by
  have skipped := skipSeparators_append separated ahead_nil
  rw [List.append_nil] at skipped
  simp only [next?, skipped]

theorem next?_eq_some (done : next? previous text = .ok (some step)) :
    ∃ c rest left, skipSeparators text = c :: rest ∧
      PathData.letter previous c rest = .ok (step.letter, left) ∧
      operands step.letter.verb left = .ok (step.operands, step.rest) := by
  simp only [next?] at done
  split at done
  · cases done
  · rename_i c rest same
    split at done
    · cases done
    · rename_i begins
      split at done
      · cases done
      · rename_i taken
        cases done
        exact ⟨c, rest, _, same, begins, taken⟩

/-- A written letter and its first group. -/
theorem next?_letter (separated : Separators gap)
    (allowed : previous = none → letter.verb = .move)
    (form : OneGroup letter.verb.kinds values text rest) :
    ∃ read, next? previous (gap ++ letter.char :: text) = .ok (some ⟨letter, read, rest⟩) ∧
      read.verb = letter.verb ∧ read.values = values := by
  have skipped : skipSeparators (gap ++ letter.char :: text) = letter.char :: text := by
    apply skipSeparators_append separated
    rw [ahead_cons]
    exact isSeparator_char letter
  have begins : PathData.letter previous letter.char text = .ok (letter, text) :=
    letter_eq_ok.mpr (.inl ⟨rfl, rfl, allowed⟩)
  obtain ⟨read, taken, verb_eq, values_eq⟩ := operands_of_oneGroup form
  refine ⟨read, ?_, verb_eq, values_eq⟩
  simp only [next?, skipped, begins, taken]

/-- A further group of a clause. -/
theorem next?_repeated (repeats : last.repeated? = some letter)
    (form : OneGroup letter.verb.kinds values text rest) :
    ∃ read, next? (some last) text = .ok (some ⟨letter, read, rest⟩) ∧
      read.verb = letter.verb ∧ read.values = values := by
  obtain ⟨kind, kinds, same⟩ := Verb.exists_kinds (Letter.verb_ne_close_of_repeated? repeats)
  rw [same] at form
  obtain ⟨c, more, skipped, mark, form⟩ := form.skipSeparators
  rw [← same] at form
  simp only [isMark, Bool.and_eq_true, Bool.not_eq_true'] at mark
  have begins : PathData.letter (some last) c more = .ok (letter, c :: more) :=
    letter_eq_ok.mpr (.inr ⟨mark.1, rfl, last, rfl, repeats⟩)
  obtain ⟨read, taken, verb_eq, values_eq⟩ := operands_of_oneGroup form
  refine ⟨read, ?_, verb_eq, values_eq⟩
  simp only [next?, skipped, begins, taken]

/-- Where a group or the end is found, a number may end. -/
theorem clear_of_next? {found : Option Step} (done : next? previous text = .ok found) :
    Clear text := by
  cases found with
  | none => exact (next?_eq_none done).clear
  | some step =>
    obtain ⟨c, rest, left, skipped, begins, -⟩ := next?_eq_some done
    obtain ⟨gap, parts, separated⟩ := skipSeparators_spelled text
    rw [parts, skipped]
    refine Ahead.append separated.clear fun _ => ?_
    rw [ahead_cons]
    rcases letter_eq_ok.mp begins with ⟨rfl, -, -⟩ | ⟨small, -, -⟩
    · exact char_ne_exponent _
    · constructor
      · rintro rfl
        cases small
      · rintro rfl
        cases small

theorem groups_of_none (done : next? previous text = .ok none) :
    groups previous text = ([], none) := by
  unfold groups
  split
  · simp_all
  · rfl
  · simp_all

theorem groups_of_some (done : next? previous text = .ok (some step)) :
    groups previous text = (step.group :: (groups (some step.letter) step.rest).1,
      (groups (some step.letter) step.rest).2) := by
  rw [groups]
  split
  · simp_all
  · simp_all
  · rename_i found same
    rw [same] at done
    cases done
    rfl

theorem clear_of_groups {groups : List (Group Float)}
    (done : PathData.groups previous text = (groups, none)) : Clear text := by
  rw [PathData.groups] at done
  split at done
  · cases done
  · rename_i found
    exact clear_of_next? found
  · rename_i found
    exact clear_of_next? found

end Step

/-- The item that a group is written as. -/
def Group.item (group : Group Float) : Item :=
  ⟨(Letter.mk group.operands.verb group.relative).char, group.operands.values⟩

/-- What a reader finds in a text. Before the first letter that is a sentence. After a letter there
may be further groups of its clause first. -/
def Resumes : Option Letter → List Item → List Char → Prop
  | none, items, text => ∃ clauses, Sentence clauses text ∧ clauses.flatMap Clause.items = items
  | some last, items, text =>
    ∃ more middle clauses, ManyGroups last.verb.kinds more text middle ∧
      (last.verb = .close → more = []) ∧ Clauses clauses middle ∧
      more.map (⟨continued last.char, ·⟩) ++ clauses.flatMap Clause.items = items

section Resumes

variable {previous : Option Letter} {letter last : Letter} {values : Values} {items : List Item}
  {gap text rest : List Char}

theorem resumes_nil (separated : Separators text) : Resumes previous [] text := by
  have formed : Clauses [] text := .nil separated
  cases previous with
  | none => exact ⟨[], ⟨formed, by simp⟩, rfl⟩
  | some last => exact ⟨[], text, [], .nil, fun _ => rfl, formed, rfl⟩

theorem Resumes.written (separated : Separators gap)
    (allowed : previous = none → letter.verb = .move)
    (form : OneGroup letter.verb.kinds values text rest)
    (resumes : Resumes (some letter) items rest) :
    Resumes previous (⟨letter.char, values⟩ :: items) (gap ++ letter.char :: text) := by
  obtain ⟨more, middle, clauses, many, closed, formed, rfl⟩ := resumes
  obtain ⟨clause, head, expanded, formed⟩ : ∃ clause : Clause, clause.letter = letter.char ∧
      clause.items = ⟨letter.char, values⟩ :: more.map (⟨continued letter.char, ·⟩) ∧
      Clauses (clause :: clauses) (gap ++ letter.char :: text) := by
    by_cases closes : letter.verb = .close
    · obtain rfl := closed closes
      rw [closes] at form many
      cases form
      cases many
      exact ⟨⟨letter.char, []⟩, rfl, rfl, .close separated (closes_char.mpr closes) formed⟩
    · exact ⟨⟨letter.char, values :: more⟩, rfl, rfl,
        .draw separated (signature_char closes) form many formed⟩
  cases previous with
  | none =>
    refine ⟨clause :: clauses, ⟨formed, ?_⟩, ?_⟩
    · intro first same
      cases same
      rw [head]
      exact moves_char.mpr (allowed rfl)
    · rw [List.flatMap_cons, expanded, List.cons_append]
  | some last =>
    refine ⟨[], _, clause :: clauses, .nil, fun _ => rfl, formed, ?_⟩
    rw [List.flatMap_cons, expanded, List.map_nil, List.nil_append, List.cons_append]

theorem Resumes.repeated (repeats : last.repeated? = some letter)
    (form : OneGroup letter.verb.kinds values text rest)
    (resumes : Resumes (some letter) items rest) :
    Resumes (some last) (⟨letter.char, values⟩ :: items) text := by
  obtain ⟨more, middle, clauses, many, closed, formed, rfl⟩ := resumes
  have draws : last.verb ≠ .close := by
    intro closes
    rw [repeated?_of_closes closes] at repeats
    cases repeats
  obtain ⟨_, repeats', char_eq, kinds_eq, -, again⟩ := exists_repeated? draws
  cases repeats.symm.trans repeats'
  rw [kinds_eq] at form many
  refine ⟨values :: more, middle, clauses, .cons form many, (absurd · draws), formed, ?_⟩
  rw [again, List.map_cons, List.cons_append, char_eq]

theorem resumes_of_groups {groups : List (Group Float)}
    (done : PathData.groups previous text = (groups, none)) :
    Resumes previous (groups.map Group.item) text := by
  fun_induction PathData.groups previous text generalizing groups with
  | case1 => cases done
  | case2 previous text found =>
    cases done
    exact resumes_nil (next?_eq_none found)
  | case3 previous text step found more fault tail ih =>
    cases done
    have resumes := ih tail
    obtain ⟨c, rest, left, skipped, begins, taken⟩ := next?_eq_some found
    -- Only what is read after a group tells that its last number is not followed by an exponent.
    have clear := clear_of_groups tail
    have form := oneGroup_of_operands taken clear
    have item_eq : step.group.item = ⟨step.letter.char, step.operands.values⟩ := by
      simp only [Group.item, Step.group, verb_of_operands taken]
    rw [List.map_cons, item_eq]
    obtain ⟨gap, parts, separated⟩ := skipSeparators_spelled text
    rw [parts, skipped]
    rcases letter_eq_ok.mp begins with ⟨rfl, rfl, allowed⟩ | ⟨-, rfl, last, rfl, repeats⟩
    · exact .written separated allowed form resumes
    · obtain ⟨kind, kinds, same⟩ :=
        Verb.exists_kinds (Letter.verb_ne_close_of_repeated? repeats)
      rw [same] at form
      refine .repeated repeats ?_ resumes
      rw [same]
      exact form.prepend separated

private theorem groups_of_written {read : Operands Float}
    (found : next? previous text = .ok (some ⟨letter, read, rest⟩))
    (verb_eq : read.verb = letter.verb) (values_eq : read.values = values)
    (tail : ∃ groups, PathData.groups (some letter) rest = (groups, none) ∧
      groups.map Group.item = items) :
    ∃ groups, PathData.groups previous text = (groups, none) ∧
      groups.map Group.item = ⟨letter.char, values⟩ :: items := by
  obtain ⟨groups, tail, rfl⟩ := tail
  refine ⟨⟨letter.relative, read⟩ :: groups, ?_, ?_⟩
  · rw [groups_of_some found, tail]
    rfl
  · simp only [List.map_cons, Group.item, verb_eq, values_eq]

private theorem groups_of_manyGroups {kinds : List Kind} {more : List Values}
    (many : ManyGroups kinds more text rest) (belongs : last.verb.kinds = kinds)
    (draws : last.verb ≠ .close)
    (tail : ∀ letter, ∃ groups, PathData.groups (some letter) rest = (groups, none) ∧
      groups.map Group.item = items) :
    ∃ groups, PathData.groups (some last) text = (groups, none) ∧
      groups.map Group.item = more.map (⟨continued last.char, ·⟩) ++ items := by
  -- The letter changes with the first further group of a move, and with no other one.
  induction many generalizing last with
  | nil => exact tail last
  | cons form _ ih =>
    obtain ⟨letter, repeats, char_eq, kinds_eq, draws', again⟩ := exists_repeated? draws
    rw [← belongs, ← kinds_eq] at form
    obtain ⟨read, found, verb_eq, values_eq⟩ := next?_repeated repeats form
    rw [List.map_cons, List.cons_append, ← char_eq]
    refine groups_of_written found verb_eq values_eq ?_
    rw [← again]
    exact ih (kinds_eq.trans belongs) draws' tail

private theorem groups_of_clauses {clauses : List Clause} (formed : Clauses clauses text)
    (moves : previous = none →
      ∀ clause ∈ clauses.head?, clause.letter = 'M' ∨ clause.letter = 'm') :
    ∃ groups, PathData.groups previous text = (groups, none) ∧
      groups.map Group.item = clauses.flatMap Clause.items := by
  induction formed generalizing previous with
  | nil separated => exact ⟨[], groups_of_none (next?_of_separators separated), rfl⟩
  | @close c clauses gap rest separated closes _ ih =>
    obtain ⟨letter, rfl, verb_eq⟩ := exists_char_of_closes closes
    have allowed : previous = none → letter.verb = .move :=
      fun first => moves_char.mp (moves first _ rfl)
    have form : OneGroup letter.verb.kinds [] rest rest := by
      rw [verb_eq]
      exact .nil
    obtain ⟨read, found, verb_eq, values_eq⟩ := next?_letter separated allowed form
    exact groups_of_written found verb_eq values_eq (ih nofun)
  | @draw c kinds values more clauses gap text middle rest separated belongs form many _ ih =>
    obtain ⟨letter, rfl, draws, rfl⟩ := exists_char_of_signature belongs
    have allowed : previous = none → letter.verb = .move :=
      fun first => moves_char.mp (moves first _ rfl)
    obtain ⟨read, found, verb_eq, values_eq⟩ := next?_letter separated allowed form
    refine groups_of_written found verb_eq values_eq ?_
    exact groups_of_manyGroups many rfl draws fun last => ih nofun

theorem groups_of_sentence {clauses : List Clause} (sentence : Sentence clauses text) :
    ∃ groups, PathData.groups none text = (groups, none) ∧
      groups.map Group.item = clauses.flatMap Clause.items :=
  groups_of_clauses sentence.formed fun _ => sentence.moves

end Resumes

end VectorPaint.PathData
