import VectorPaint.PathData.Command
import VectorPaint.Proofs.Outline.Continued
import VectorPaint.Proofs.Outline.Drawn
import VectorPaint.Proofs.PathData.Locality

/-!
Texts of path data one after the other. An absolute move makes everything before it irrelevant: the
letter, the operands, the position, the control points and the open chain that the text before it
ended with. So a text without an error, followed by a text that begins with such a move, has the
commands and chains of both, and an error of the second text shows as many bytes later as the first
one has.
-/
namespace VectorPaint.PathData

open Decimal Numeral

/-- Apart from separators the text begins with an absolute move. -/
def BeginsAnew (text : List Char) : Prop := (skipSeparators text).head? = some 'M'

section Groups

variable {previous : Option Letter} {text more : List Char}

theorem BeginsAnew.exists_rest (anew : BeginsAnew text) :
    ∃ rest, skipSeparators text = 'M' :: rest :=
  List.head?_eq_some_iff.mp anew

/-- Neither a separator nor the letter of a move continues a number. -/
theorem BeginsAnew.apart (anew : BeginsAnew text) : Apart text := by
  obtain ⟨gap, parts, separated⟩ := skipSeparators_spelled text
  obtain ⟨rest, found⟩ := anew.exists_rest
  rw [parts, found]
  refine Ahead.append ?_ fun _ => ?_
  · rintro c rest' rfl
    have marks : ∀ c ∈ [' ', '\t', '\r', '\n', '\x0c', ','],
        c.isDigit = false ∧ c ≠ '.' ∧ c ≠ 'e' ∧ c ≠ 'E' := by simp
    exact marks c (separated c List.mem_cons_self)
  · rw [ahead_cons]
    decide

/-- The letter of an absolute move is read alike after any letter. -/
theorem next?_of_anew (anew : BeginsAnew text) : next? previous text = next? none text := by
  obtain ⟨rest, found⟩ := anew.exists_rest
  have begins (previous : Option Letter) : letter previous 'M' rest = .ok (⟨.move, false⟩, rest) :=
    letter_eq_ok.mpr (.inl ⟨rfl, rfl, fun _ => rfl⟩)
  simp only [next?, found, begins]

/-- The groups depend on what is read first. -/
theorem groups_of_same {previous' : Option Letter}
    (same : next? previous text = next? previous' more) :
    groups previous text = groups previous' more := by
  match found : next? previous' more with
  | .error fault => rw [groups_of_error found, groups_of_error (same.trans found)]
  | .ok none => rw [groups_of_none found, groups_of_none (same.trans found)]
  | .ok (some step) => rw [groups_of_some found, groups_of_some (same.trans found)]

theorem groups_of_anew (anew : BeginsAnew text) : groups previous text = groups none text :=
  groups_of_same (next?_of_anew anew)

theorem eq_move_of_verb {α : Type} {read : Operands α} (same : read.verb = .move) :
    ∃ p, read = .move p := by
  cases read with
  | move p => exact ⟨p, rfl⟩
  | _ => cases same

/-- The first group that is read is an absolute move. -/
theorem head_groups_of_anew (anew : BeginsAnew text) :
    ∀ group ∈ (groups none text).1.head?, ∃ p, group = ⟨false, .move p⟩ := by
  obtain ⟨rest, skipped⟩ := anew.exists_rest
  intro group member
  match found : next? none text with
  | .error fault => simp [groups_of_error found] at member
  | .ok none => simp [groups_of_none found] at member
  | .ok (some step) =>
    obtain ⟨c, rest', left, skipped', begins, taken⟩ := next?_eq_some found
    rw [skipped] at skipped'
    cases skipped'
    obtain ⟨written, -, -⟩ | ⟨small, -, -⟩ := letter_eq_ok.mp begins
    · have absolute : step.letter = ⟨.move, false⟩ :=
        Option.some.inj ((ofChar?_eq_some.mpr written).symm.trans rfl)
      have verb_eq := verb_of_operands taken
      rw [absolute] at verb_eq
      obtain ⟨p, same⟩ := eq_move_of_verb verb_eq
      simp only [groups_of_some found, List.head?_cons, Option.mem_def, Option.some.injEq] at member
      rw [← member]
      exact ⟨p, by rw [Step.group, absolute, same]⟩
    · cases small

/-- The groups of a text without a fault are followed by those of the text after it. -/
theorem groups_append (anew : BeginsAnew more) (done : (groups previous text).2 = none) :
    groups previous (text ++ more) =
      ((groups previous text).1 ++ (groups none more).1, (groups none more).2) := by
  fun_induction groups previous text with
  | case1 => cases done
  | case2 previous text found =>
    have skipped : skipSeparators text = [] := by
      have all := skipSeparators_append (next?_eq_none found) ahead_nil
      rwa [List.append_nil] at all
    have same : next? previous (text ++ more) = next? previous more := by
      simp only [next?, skipSeparators_append_of_nil skipped]
    rw [List.nil_append]
    exact (groups_of_same same).trans (groups_of_anew anew)
  | case3 previous text step found rest fault tail ih =>
    rw [tail] at ih
    rw [groups_of_some (next?_append anew.apart found), ih done]
    rfl

end Groups

section Commands

variable {α : Type} [Scalar α] {context other : Context α} {read : List (Group α)}

theorem resolveAll_append (context : Context α) (first second : List (Group α)) :
    resolveAll context (first ++ second) = resolveAll context first ++
      resolveAll ((resolveAll context first).foldl Context.after context) second := by
  induction first generalizing context with
  | nil => rfl
  | cons group rest ih => simp only [List.cons_append, resolveAll, ih, List.foldl_cons]

/-- After an absolute move nothing is left of what the reader knew. -/
theorem resolveAll_of_anew (anew : ∀ group ∈ read.head?, ∃ p, group = ⟨false, .move p⟩) :
    resolveAll context read = resolveAll other read := by
  cases read with
  | nil => rfl
  | cons group more =>
    obtain ⟨p, rfl⟩ := anew group rfl
    rfl

theorem head_resolveAll_of_anew (context : Context α)
    (anew : ∀ group ∈ read.head?, ∃ p, group = ⟨false, .move p⟩) :
    ∀ command ∈ (resolveAll context read).head?, ∃ p, command = .moveTo p := by
  cases read with
  | nil => nofun
  | cons group more =>
    obtain ⟨p, rfl⟩ := anew group rfl
    rintro command ⟨⟩
    exact ⟨p, rfl⟩

end Commands

section Texts

variable {first second : String} {curveSteps : Nat}

/-- The error as it shows with a text of so many bytes in front. -/
def Error.after (bytes : Nat) (error : Error) : Error := ⟨bytes + error.offset, error.cause⟩

theorem toError_append (first : String) {text : List Char} {fault : Fault}
    (ends : fault.rest <:+ text) : fault.toError (first.toList ++ text) =
      (fault.toError text).after first.utf8ByteSize := by
  have within := Text.byteCount_le_of_suffix ends
  simp only [Fault.toError, Error.after, Text.byteCount_append, Text.byteCount_toList]
  congr 1
  omega

/-- An accepted text, and after it one that begins with an absolute move. -/
theorem commands_append (accepted : (commands first).2 = none)
    (anew : BeginsAnew second.toList) : commands (first ++ second) =
      ((commands first).1 ++ (commands second).1,
        (commands second).2.map (·.after first.utf8ByteSize)) := by
  have done : (groups none first.toList).2 = none := by simpa [commands] using accepted
  have joined := groups_append anew done
  have reset (context : Context Float) : resolveAll context (groups none second.toList).1 =
      resolveAll Context.initial (groups none second.toList).1 :=
    resolveAll_of_anew (head_groups_of_anew anew)
  simp only [commands, String.toList_append, joined, resolveAll_append, reset]
  congr 1
  match found : (groups none second.toList).2 with
  | none => rfl
  | some fault =>
    simp only [Option.map_some, toError_append first (suffix_of_groups found)]

theorem outline_eq_ok {text : String} {o : Outline Float} :
    outline curveSteps text = .ok o ↔ (commands text).2 = none ∧
      o = ((commands text).1.foldl Command.draw (Pen.new curveSteps)).outline := by
  unfold outline
  match commands text with
  | (_, some error) => simp
  | (_, none) => simp [eq_comm]

theorem outline_eq_error {text : String} {error : Error} :
    outline curveSteps text = .error error ↔ (commands text).2 = some error := by
  unfold outline
  match commands text with
  | (_, some other) => simp
  | (_, none) => simp

/-- If a text is accepted and another one begins with an absolute move, then both together have the
commands and the chains of the one followed by those of the other if this one is accepted too, and
otherwise its error, as many bytes later as the first text has. -/
theorem outline_joined {o : Outline Float} (accepted : outline curveSteps first = .ok o)
    (anew : (skipSeparators second.toList).head? = some 'M') :
    (∀ p, outline curveSteps second = .ok p →
      (commands (first ++ second)).2 = none ∧
      (commands (first ++ second)).1 = (commands first).1 ++ (commands second).1 ∧
      outline curveSteps (first ++ second) = .ok ⟨o.chains ++ p.chains⟩) ∧
    ∀ error, outline curveSteps second = .error error →
      outline curveSteps (first ++ second) =
        .error ⟨first.utf8ByteSize + error.offset, error.cause⟩ := by
  obtain ⟨fine, rfl⟩ := outline_eq_ok.mp accepted
  have joined := commands_append fine anew
  have drawn := (Pen.consistent_new (α := Float) curveSteps).drawAll (commands first).1
  constructor
  · intro p accepted'
    obtain ⟨fine', rfl⟩ := outline_eq_ok.mp accepted'
    have chains := Pen.chains_drawAll_of_moves drawn
      (head_resolveAll_of_anew Context.initial (head_groups_of_anew anew))
    rw [outline_eq_ok, joined, fine', List.foldl_append]
    refine ⟨rfl, rfl, rfl, ?_⟩
    exact congrArg Outline.mk chains.symm
  · intro error failed
    rw [outline_eq_error] at failed ⊢
    rw [joined, failed]
    rfl

/-- It ends with a number, in an open chain. -/
def openText : String := "M0 0c0 1 1 1 1 0m2 2L3.5,7"

/-- Its smooth curve has nothing to do with a curve before the move. -/
def freshText : String := "M5 5s1 1 2 2"

def brokenText : String := ",M5 5L3"

theorem outline_openText :
    ∃ o p, outline 24 openText = .ok o ∧ outline 24 freshText = .ok p ∧
      outline 24 (openText ++ freshText) = .ok ⟨o.chains ++ p.chains⟩ ∧
      outline 24 brokenText = .error ⟨7, .numberMissing⟩ ∧
      outline 24 (openText ++ brokenText) = .error ⟨33, .numberMissing⟩ := by
  have first : outline 24 openText = .ok _ := outline_eq_ok.mpr ⟨by decide +kernel, rfl⟩
  have fresh : outline 24 freshText = .ok _ := outline_eq_ok.mpr ⟨by decide +kernel, rfl⟩
  have broken : outline 24 brokenText = .error ⟨7, .numberMissing⟩ := by
    rw [outline_eq_error]
    decide +kernel
  refine ⟨_, _, first, fresh, ?_, broken, ?_⟩
  · exact ((outline_joined first (by decide)).1 _ fresh).2.2
  · exact (outline_joined first (by decide)).2 _ broken

end Texts

end VectorPaint.PathData
