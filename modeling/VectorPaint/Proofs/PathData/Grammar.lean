import VectorPaint.Proofs.Decimal.Spelling

/-!
The language of path data, defined by its texts and without regard to how they are read. A sentence
is a list of clauses. Each clause has one letter: those that draw have one or more groups of
operands, all of the kinds that belong to the letter, and those that close a chain have none.
-/
namespace VectorPaint.PathData

open Decimal Numeral

def Separators (gap : List Char) : Prop := ∀ c ∈ gap, c ∈ [' ', '\t', '\r', '\n', '\x0c', ',']

inductive Kind where
  | number
  | flag
  deriving Repr, DecidableEq

/-- What an operand stands for. -/
inductive Value where
  | number (x : Float)
  | flag (set : Bool)

/-- A group of operands as written: what each one stands for. -/
abbrev Values := List Value

/-- The operand at the front of a text, and the text after it. A number is the longest that there
is. It has a finite value, and the letter of an exponent does not follow it. -/
inductive Token : Kind → Value → List Char → List Char → Prop where
  | number {n : Numeral} {word rest : List Char} :
      Spelled n word → Longest word (word ++ rest) → Clear rest → n.value.isFinite = true →
      Token .number (.number n.value) (word ++ rest) rest
  | zero {rest : List Char} : Token .flag (.flag false) ('0' :: rest) rest
  | one {rest : List Char} : Token .flag (.flag true) ('1' :: rest) rest

/-- A group of operands at the front of a text, and the text after it. There may be separators in
front of each operand. -/
inductive OneGroup : List Kind → Values → List Char → List Char → Prop where
  | nil {text : List Char} : OneGroup [] [] text text
  | cons {kind : Kind} {kinds : List Kind} {value : Value} {values : Values}
      {gap text middle rest : List Char} :
      Separators gap → Token kind value text middle → OneGroup kinds values middle rest →
      OneGroup (kind :: kinds) (value :: values) (gap ++ text) rest

/-- Any number of groups of the same kinds. -/
inductive ManyGroups (kinds : List Kind) : List Values → List Char → List Char → Prop where
  | nil {text : List Char} : ManyGroups kinds [] text text
  | cons {values : Values} {more : List Values} {text middle rest : List Char} :
      OneGroup kinds values text middle → ManyGroups kinds more middle rest →
      ManyGroups kinds (values :: more) text rest

/-- The kinds of operands that belong to a letter that draws. -/
def signature : Char → Option (List Kind)
  | 'M' | 'm' | 'L' | 'l' | 'T' | 't' => some [.number, .number]
  | 'H' | 'h' | 'V' | 'v' => some [.number]
  | 'S' | 's' | 'Q' | 'q' => some [.number, .number, .number, .number]
  | 'C' | 'c' => some [.number, .number, .number, .number, .number, .number]
  | 'A' | 'a' => some [.number, .number, .number, .flag, .flag, .number, .number]
  | _ => none

/-- A letter and its groups. -/
structure Clause where
  letter : Char
  groups : List Values

def Closes (letter : Char) : Prop := letter = 'Z' ∨ letter = 'z'

inductive Clauses : List Clause → List Char → Prop where
  | nil {gap : List Char} : Separators gap → Clauses [] gap
  | close {letter : Char} {clauses : List Clause} {gap rest : List Char} :
      Separators gap → Closes letter → Clauses clauses rest →
      Clauses (⟨letter, []⟩ :: clauses) (gap ++ letter :: rest)
  | draw {letter : Char} {kinds : List Kind} {values : Values} {more : List Values}
      {clauses : List Clause} {gap text middle rest : List Char} :
      Separators gap → signature letter = some kinds → OneGroup kinds values text middle →
      ManyGroups kinds more middle rest → Clauses clauses rest →
      Clauses (⟨letter, values :: more⟩ :: clauses) (gap ++ letter :: text)

/-- The clauses of a whole text. If there are any, then the first one moves. -/
structure Sentence (clauses : List Clause) (text : List Char) : Prop where
  formed : Clauses clauses text
  moves : ∀ clause ∈ clauses.head?, clause.letter = 'M' ∨ clause.letter = 'm'

instance (letter : Char) : Decidable (Closes letter) := inferInstanceAs (Decidable (_ ∨ _))

/-- How many commands there are: one for each group, and one for each letter that closes. -/
def commandCount (clauses : List Clause) : Nat :=
  (clauses.flatMap Clause.groups).length +
    clauses.countP fun clause => decide (Closes clause.letter)

/-- The letter that groups after the first one have. -/
def continued : Char → Char
  | 'M' => 'L'
  | 'm' => 'l'
  | letter => letter

/-- A letter with a single group. -/
structure Item where
  letter : Char
  values : Values

/-- A clause with a letter written for each of its groups. -/
def Clause.items : Clause → List Item
  | ⟨letter, []⟩ => [⟨letter, []⟩]
  | ⟨letter, values :: more⟩ => ⟨letter, values⟩ :: more.map (⟨continued letter, ·⟩)

theorem signature_of_closes {letter : Char} (closes : Closes letter) :
    signature letter = none := by
  rcases closes with rfl | rfl <;> rfl

theorem Clauses.length_items {clauses : List Clause} {text : List Char}
    (form : Clauses clauses text) :
    (clauses.flatMap Clause.items).length = commandCount clauses := by
  induction form with
  | nil => rfl
  | close _ closes _ ih =>
    simp only [commandCount, List.flatMap_cons, List.length_append, List.countP_cons, closes,
      decide_true, if_true, Clause.items, List.length_cons, List.length_nil] at ih ⊢
    omega
  | @draw letter _ _ _ _ _ _ _ _ _ belongs _ _ _ ih =>
    have draws : ¬ Closes letter := by
      intro closes
      rw [signature_of_closes closes] at belongs
      cases belongs
    simp only [commandCount, List.flatMap_cons, List.length_append, List.countP_cons, draws,
      decide_false, Bool.false_eq_true, if_false, Clause.items, List.length_cons,
      List.length_map] at ih ⊢
    omega

end VectorPaint.PathData
