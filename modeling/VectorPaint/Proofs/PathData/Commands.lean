import VectorPaint.PathData.Command
import VectorPaint.Proofs.PathData.Clauses

/-!
What path data means. Its texts without an error are the sentences of the language, and each group
of a sentence has one command, which is determined by the commands before it. The context that the
reader keeps is no more than a summary of them.
-/
namespace VectorPaint.PathData

section Accepted

variable {text : String} {read : List (Group Float)} {clauses : List Clause}

theorem commands_fst : (commands text).1 =
    resolveAll Context.initial (groups none text.toList).1 := rfl

theorem commands_snd : (commands text).2 = none ↔ (groups none text.toList).2 = none := by
  simp [commands]

theorem length_resolveAll {α : Type} [Scalar α] (context : Context α) (read : List (Group α)) :
    (resolveAll context read).length = read.length := by
  induction read generalizing context with
  | nil => rfl
  | cons group more ih => simp [resolveAll, ih]

private theorem exists_sentence (accepted : (commands text).2 = none) :
    ∃ clauses, Sentence clauses text.toList := by
  rw [commands_snd] at accepted
  have done : groups none text.toList = ((groups none text.toList).1, none) := by
    rw [← accepted]
  obtain ⟨clauses, sentence, -⟩ := resumes_of_groups done
  exact ⟨clauses, sentence⟩

private theorem commands_of_sentence (sentence : Sentence clauses text.toList) :
    ∃ read, (commands text).2 = none ∧ (commands text).1 = resolveAll Context.initial read ∧
      read.map Group.item = clauses.flatMap Clause.items := by
  obtain ⟨read, done, same⟩ := groups_of_sentence sentence
  refine ⟨read, ?_, ?_, same⟩
  · rw [commands_snd, done]
  · rw [commands_fst, done]

private theorem length_commands (sentence : Sentence clauses text.toList) :
    (commands text).1.length = (clauses.flatMap Clause.items).length := by
  obtain ⟨read, -, same, items⟩ := commands_of_sentence sentence
  rw [same, length_resolveAll, ← items, List.length_map]

/-- A text is read without an error exactly if it is a sentence. Then there is one command for each
group and one for each letter that closes. -/
theorem commands_accept_sentences (text : String) (n : Nat) :
    (commands text).2 = none ∧ (commands text).1.length = n ↔
      ∃ clauses, Sentence clauses text.toList ∧ commandCount clauses = n := by
  constructor
  · rintro ⟨accepted, rfl⟩
    obtain ⟨clauses, sentence⟩ := exists_sentence accepted
    refine ⟨clauses, sentence, ?_⟩
    rw [length_commands sentence, sentence.formed.length_items]
  · rintro ⟨clauses, sentence, rfl⟩
    obtain ⟨read, accepted, -⟩ := commands_of_sentence sentence
    refine ⟨accepted, ?_⟩
    rw [length_commands sentence, sentence.formed.length_items]

end Accepted

section History

variable {α : Type} [Scalar α]

/-- Where the last command ended. -/
def lastTarget (history : List (Command α)) : Point α :=
  match history.getLast? with
  | some command => command.target
  | none => Point.origin

def Command.moved? : Command α → Option (Point α)
  | .moveTo p => some p
  | _ => none

/-- Where the most recent move went. -/
def lastMove (history : List (Command α)) : Point α :=
  (history.filterMap Command.moved?).getLast?.getD Point.origin

/-- The control point opposite to the one at the end of the last curve, which has to be cubic. -/
def cubicReflection (history : List (Command α)) : Point α :=
  match history.getLast? with
  | some (.cubicTo _ control _) => Point.scale (Scalar.ofNat 2) (lastTarget history) - control
  | _ => lastTarget history

/-- The same for quadratic curves. -/
def quadraticReflection (history : List (Command α)) : Point α :=
  match history.getLast? with
  | some (.quadTo control _) => Point.scale (Scalar.ofNat 2) (lastTarget history) - control
  | _ => lastTarget history

/-- The command that an item stands for after the commands before it. A small letter is relative to
where the last of them ended. -/
def Item.meaning (history : List (Command Float)) (item : Item) : Option (Command Float) :=
  let position := lastTarget history
  let relative := item.letter.isLower
  let place (p : Point Float) := if relative then p + position else p
  match item.letter.toUpper, item.values with
  | 'M', [.number x, .number y] => some (.moveTo (place ⟨x, y⟩))
  | 'L', [.number x, .number y] => some (.lineTo (place ⟨x, y⟩))
  | 'H', [.number x] => some (.lineTo ⟨if relative then position.x + x else x, position.y⟩)
  | 'V', [.number y] => some (.lineTo ⟨position.x, if relative then position.y + y else y⟩)
  | 'C', [.number x₁, .number y₁, .number x₂, .number y₂, .number x, .number y] =>
    some (.cubicTo (place ⟨x₁, y₁⟩) (place ⟨x₂, y₂⟩) (place ⟨x, y⟩))
  | 'S', [.number x₂, .number y₂, .number x, .number y] =>
    some (.cubicTo (cubicReflection history) (place ⟨x₂, y₂⟩) (place ⟨x, y⟩))
  | 'Q', [.number x₁, .number y₁, .number x, .number y] =>
    some (.quadTo (place ⟨x₁, y₁⟩) (place ⟨x, y⟩))
  | 'T', [.number x, .number y] => some (.quadTo (quadraticReflection history) (place ⟨x, y⟩))
  | 'A', [.number rx, .number ry, .number rotation, .flag large, .flag sweep, .number x,
      .number y] => some (.arcTo ⟨rx.abs, ry.abs⟩ rotation large sweep (place ⟨x, y⟩))
  | 'Z', [] => some (.close (lastMove history))
  | _, _ => none

/-- What the reader keeps of the commands before. -/
def Context.summary (history : List (Command α)) : Context α :=
  ⟨lastTarget history, lastMove history, history.getLast?⟩

theorem Context.summary_nil : Context.summary ([] : List (Command α)) = Context.initial := rfl

theorem Context.after_summary (history : List (Command α)) (command : Command α) :
    (Context.summary history).after command = Context.summary (history ++ [command]) := by
  have position : lastTarget (history ++ [command]) = command.target := by
    simp [lastTarget]
  cases command <;>
    simp [Context.after, Context.summary, position, lastMove, Command.moved?]

theorem Context.cubicControl_summary (history : List (Command α)) :
    (Context.summary history).cubicControl = cubicReflection history := by
  unfold Context.cubicControl cubicReflection Context.summary lastTarget
  cases history.getLast? with
  | none => rfl
  | some command => cases command <;> rfl

theorem Context.quadraticControl_summary (history : List (Command α)) :
    (Context.summary history).quadraticControl = quadraticReflection history := by
  unfold Context.quadraticControl quadraticReflection Context.summary lastTarget
  cases history.getLast? with
  | none => rfl
  | some command => cases command <;> rfl

private theorem isLower_char (letter : Letter) : letter.char.isLower = letter.relative := by
  obtain ⟨verb, relative⟩ := letter
  cases verb <;> cases relative <;> rfl

private theorem toUpper_char (letter : Letter) :
    letter.char.toUpper = (Letter.mk letter.verb false).char := by
  obtain ⟨verb, relative⟩ := letter
  cases verb <;> cases relative <;> decide

theorem meaning_item (history : List (Command Float)) (group : Group Float) :
    group.item.meaning history = some ((Context.summary history).resolve group) := by
  obtain ⟨relative, operands⟩ := group
  unfold Item.meaning Context.resolve Group.item
  rw [isLower_char, toUpper_char]
  cases operands with
  | smoothCubic control p =>
    rw [Context.cubicControl_summary]
    rfl
  | smoothQuadratic p =>
    rw [Context.quadraticControl_summary]
    rfl
  | _ => rfl

/-- Each command of a run has the meaning of its item after the commands before it. -/
theorem getElem?_resolveAll (history : List (Command Float)) (read : List (Group Float)) {k : Nat}
    {item : Item} (found : (read.map Group.item)[k]? = some item) :
    (resolveAll (Context.summary history) read)[k]? =
      item.meaning (history ++ (resolveAll (Context.summary history) read).take k) := by
  -- Along the groups the history grows, and the context stays its summary.
  induction read generalizing history k with
  | nil => simp at found
  | cons group more ih =>
    cases k with
    | zero =>
      simp only [List.map_cons, List.getElem?_cons_zero, Option.some.injEq] at found
      subst found
      simp [resolveAll, meaning_item]
    | succ k =>
      simp only [List.map_cons, List.getElem?_cons_succ] at found
      simp only [resolveAll, List.getElem?_cons_succ, List.take_succ_cons]
      rw [Context.after_summary, ih _ found, List.append_assoc, List.singleton_append]

/-- The commands of a text without an error are those of its items, with repeated letters written
out. Each has the meaning of its item after the commands before it. -/
theorem commands_follow_history (text : String) (accepted : (commands text).2 = none) :
    (∃ clauses, Sentence clauses text.toList) ∧
    ∀ clauses, Sentence clauses text.toList →
      (commands text).1.length = (clauses.flatMap Clause.items).length ∧
      ∀ (k : Nat) (item : Item), (clauses.flatMap Clause.items)[k]? = some item →
        (commands text).1[k]? = item.meaning ((commands text).1.take k) := by
  refine ⟨exists_sentence accepted, fun clauses sentence => ?_⟩
  refine ⟨length_commands sentence, fun k item found => ?_⟩
  obtain ⟨read, -, same, items⟩ := commands_of_sentence sentence
  rw [← items] at found
  rw [same, ← Context.summary_nil]
  exact getElem?_resolveAll [] read found

/-- The end of the text is reached without a fault within so many steps. -/
def reachesEnd : Nat → Option Letter → List Char → Bool
  | 0, _, _ => false
  | steps + 1, previous, text =>
    match next? previous text with
    | .error _ => false
    | .ok none => true
    | .ok (some step) => reachesEnd steps (some step.letter) step.rest

theorem groups_of_reachesEnd {steps : Nat} {previous : Option Letter} {text : List Char}
    (reaches : reachesEnd steps previous text = true) : (groups previous text).2 = none := by
  induction steps generalizing previous text with
  | zero => cases reaches
  | succ steps ih =>
    rw [reachesEnd] at reaches
    split at reaches
    · cases reaches
    · rename_i found
      rw [groups_of_none found]
    · rename_i found
      rw [groups_of_some found]
      exact ih reaches

/-- A cubic curve and a smooth one after it, and a smooth quadratic curve after the chain was
closed. -/
def smoothText : String := "M1 2c0 10 10 10 10 0s20-10 20 0zt3 4"

theorem commands_smoothText :
    (commands smoothText).2 = none ∧ (∃ clauses, Sentence clauses smoothText.toList) ∧
    ∀ clauses, Sentence clauses smoothText.toList →
      (commands smoothText).1.length = (clauses.flatMap Clause.items).length ∧
      ∀ (k : Nat) (item : Item), (clauses.flatMap Clause.items)[k]? = some item →
        (commands smoothText).1[k]? = item.meaning ((commands smoothText).1.take k) := by
  have accepted : (commands smoothText).2 = none := by
    rw [commands_snd]
    have reaches : reachesEnd 6 none smoothText.toList = true := by decide +kernel
    exact groups_of_reachesEnd reaches
  exact ⟨accepted, commands_follow_history smoothText accepted⟩

end History

end VectorPaint.PathData
