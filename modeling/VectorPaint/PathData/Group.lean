import VectorPaint.PathData.Reader

/-!
Path data as written: letters, each with the groups of operands that belong to it. A group that
follows another one without a letter repeats the letter before it; after a moveto it draws a line.
Reading a text gives its groups up to the first fault.
-/
namespace VectorPaint.PathData

inductive Verb where
  | move
  | line
  | horizontal
  | vertical
  | cubic
  | smoothCubic
  | quadratic
  | smoothQuadratic
  | arc
  | close
  deriving Repr, DecidableEq

/-- A command letter; a small one is relative to the current position. -/
structure Letter where
  verb : Verb
  relative : Bool
  deriving Repr, DecidableEq

def Letter.ofChar? : Char → Option Letter
  | 'M' => some ⟨.move, false⟩
  | 'm' => some ⟨.move, true⟩
  | 'L' => some ⟨.line, false⟩
  | 'l' => some ⟨.line, true⟩
  | 'H' => some ⟨.horizontal, false⟩
  | 'h' => some ⟨.horizontal, true⟩
  | 'V' => some ⟨.vertical, false⟩
  | 'v' => some ⟨.vertical, true⟩
  | 'C' => some ⟨.cubic, false⟩
  | 'c' => some ⟨.cubic, true⟩
  | 'S' => some ⟨.smoothCubic, false⟩
  | 's' => some ⟨.smoothCubic, true⟩
  | 'Q' => some ⟨.quadratic, false⟩
  | 'q' => some ⟨.quadratic, true⟩
  | 'T' => some ⟨.smoothQuadratic, false⟩
  | 't' => some ⟨.smoothQuadratic, true⟩
  | 'A' => some ⟨.arc, false⟩
  | 'a' => some ⟨.arc, true⟩
  | 'Z' => some ⟨.close, false⟩
  | 'z' => some ⟨.close, true⟩
  | _ => none

/-- Letters that later versions of the format define and this one does not draw. -/
def isUnsupported (c : Char) : Bool := c == 'B' || c == 'b' || c == 'R' || c == 'r'

/-- The operands of one group, as they are written. -/
inductive Operands (α : Type) where
  | move (p : Point α)
  | line (p : Point α)
  | horizontal (x : α)
  | vertical (y : α)
  | cubic (control₁ control₂ p : Point α)
  | smoothCubic (control₂ p : Point α)
  | quadratic (control p : Point α)
  | smoothQuadratic (p : Point α)
  | arc (radii : Point α) (rotation : α) (large sweep : Bool) (p : Point α)
  | close

structure Group (α : Type) where
  relative : Bool
  operands : Operands α

/-- The letter that a further group without a letter repeats. -/
def Letter.repeated? (letter : Letter) : Option Letter :=
  match letter.verb with
  | .move => some { letter with verb := .line }
  | .close => none
  | _ => some letter

def operands : Verb → Reader (Operands Float)
  | .move => do return .move (← point)
  | .line => do return .line (← point)
  | .horizontal => do return .horizontal (← number)
  | .vertical => do return .vertical (← number)
  | .cubic => do
    let control₁ ← point
    let control₂ ← point
    return .cubic control₁ control₂ (← point)
  | .smoothCubic => do
    let control₂ ← point
    return .smoothCubic control₂ (← point)
  | .quadratic => do
    let control ← point
    return .quadratic control (← point)
  | .smoothQuadratic => do return .smoothQuadratic (← point)
  | .arc => do
    let radii ← point
    let rotation ← number
    let large ← flag
    let sweep ← flag
    return .arc radii rotation large sweep (← point)
  | .close => return .close

/-- The letter of the group that `c :: rest` begins: a written one, which is taken from the text, or
the one that the `previous` letter repeats. The first letter of all is a moveto. -/
def letter (previous : Option Letter) (c : Char) (rest : List Char) :
    Except Fault (Letter × List Char) :=
  match Letter.ofChar? c with
  | some letter =>
    if previous = none ∧ letter.verb ≠ .move then .error ⟨.movetoExpected, c :: rest⟩
    else .ok (letter, rest)
  | none =>
    if isUnsupported c then .error ⟨.unsupportedCommand c, c :: rest⟩
    else if c.isAlpha then .error ⟨.unknownCommand c, c :: rest⟩
    else
      match previous with
      | none => .error ⟨.movetoExpected, c :: rest⟩
      | some last =>
        match last.repeated? with
        | none => .error ⟨.commandExpected, c :: rest⟩
        | some letter => .ok (letter, c :: rest)

/-- A group with its letter, and the text after it. -/
structure Step where
  letter : Letter
  operands : Operands Float
  rest : List Char

def Step.group (step : Step) : Group Float := ⟨step.letter.relative, step.operands⟩

/-- The next group; none at the end of the text. -/
def next? (previous : Option Letter) (text : List Char) : Except Fault (Option Step) :=
  match skipSeparators text with
  | [] => .ok none
  | c :: rest =>
    match letter previous c rest with
    | .error fault => .error fault
    | .ok (letter, rest) =>
      match operands letter.verb rest with
      | .error fault => .error fault
      | .ok (operands, rest) => .ok (some ⟨letter, operands, rest⟩)

theorem operands_takes {verb : Verb} (draws : verb ≠ .close) : (operands verb).Takes := by
  have point_keeps := point_takes.keeps
  cases verb with
  | move | line | smoothQuadratic => exact point_takes.bind fun _ => .pure _
  | horizontal | vertical => exact number_takes.bind fun _ => .pure _
  | cubic =>
    exact point_takes.bind fun _ => point_keeps.bind fun _ => point_keeps.bind fun _ => .pure _
  | smoothCubic | quadratic => exact point_takes.bind fun _ => point_keeps.bind fun _ => .pure _
  | arc =>
    exact point_takes.bind fun _ => number_takes.keeps.bind fun _ =>
      flag_takes.keeps.bind fun _ => flag_takes.keeps.bind fun _ =>
        point_keeps.bind fun _ => .pure _
  | close => exact absurd rfl draws

theorem operands_keeps (verb : Verb) : (operands verb).Keeps := by
  by_cases closes : verb = .close
  · subst closes
    exact .pure _
  · exact (operands_takes closes).keeps

theorem Letter.verb_ne_close_of_repeated? {last letter : Letter}
    (same : last.repeated? = some letter) : letter.verb ≠ .close := by
  unfold Letter.repeated? at same
  split at same
  · cases same
    simp
  · cases same
  · rename_i draws
    cases same
    exact draws

theorem length_lt_of_next? {previous : Option Letter} {text : List Char} {step : Step}
    (done : next? previous text = .ok (some step)) : step.rest.length < text.length := by
  have shorter := length_skipSeparators_le text
  simp only [next?] at done
  generalize skipSeparators text = piece at done shorter
  split at done
  · cases done
  · rename_i c tail
    split at done
    · cases done
    · rename_i found rest begins
      split at done
      · cases done
      · rename_i taken
        cases done
        simp only [letter] at begins
        simp only [List.length_cons] at shorter
        split at begins
        · split at begins
          · cases begins
          · cases begins
            have := operands_keeps _ taken
            simp only
            omega
        · split at begins
          · cases begins
          · split at begins
            · cases begins
            · split at begins
              · cases begins
              · split at begins
                · cases begins
                · rename_i same
                  cases begins
                  have := operands_takes (Letter.verb_ne_close_of_repeated? same) taken
                  simp only [List.length_cons] at this
                  simp only
                  omega

/-- The groups of a text up to its first fault. -/
def groups (previous : Option Letter) (text : List Char) : List (Group Float) × Option Fault :=
  match _step : next? previous text with
  | .error fault => ([], some fault)
  | .ok none => ([], none)
  | .ok (some step) =>
    let (more, fault) := groups (some step.letter) step.rest
    (step.group :: more, fault)
termination_by text.length
decreasing_by exact length_lt_of_next? (by assumption)

end VectorPaint.PathData
