import Mathlib.Algebra.Group.Even
import VectorPaint.Drawing.Element
import VectorPaint.PathData.Command
import VectorPaint.Proofs.Color.Function
import VectorPaint.Proofs.Color.Hex
import VectorPaint.Proofs.PathData.Lengths

/-!
The checks of elements. For each tag that is drawn there is a list of attributes that make up its
geometry, and one list is for the style of all of them. An attribute that need not be there may be
absent, and one that is there has to be acceptable. No check is both passed and failed, and it fails
with one error only, so of the checks in a list there is one first fault at most.
-/
namespace VectorPaint

/-- A value without the blanks around it. -/
def Text.trimmed (value : String) : String := String.ofList (Text.trim value.toList)

/-- What the value of an attribute has to be. -/
inductive Demand where
  | coordinate
  | extent
  | points
  | pathData
  | opacity
  | paint
  | fillRule

/-- An attribute that is checked, and whether it has to be there. -/
structure Check where
  name : String
  demand : Demand
  required : Bool

/-- The tags that are drawn, with the checks of their geometry. -/
def Check.geometry : List (String × List Check) :=
  [("rect", [⟨"x", .coordinate, true⟩, ⟨"y", .coordinate, true⟩, ⟨"width", .extent, true⟩,
      ⟨"height", .extent, true⟩]),
    ("circle", [⟨"cx", .coordinate, true⟩, ⟨"cy", .coordinate, true⟩, ⟨"r", .extent, true⟩]),
    ("ellipse", [⟨"cx", .coordinate, true⟩, ⟨"cy", .coordinate, true⟩, ⟨"rx", .extent, true⟩,
      ⟨"ry", .extent, true⟩]),
    ("line", [⟨"x1", .coordinate, true⟩, ⟨"y1", .coordinate, true⟩, ⟨"x2", .coordinate, true⟩,
      ⟨"y2", .coordinate, true⟩]),
    ("polyline", [⟨"points", .points, true⟩]),
    ("polygon", [⟨"points", .points, true⟩]),
    ("path", [⟨"d", .pathData, true⟩])]

/-- The checks of a style. -/
def Check.style : List Check :=
  [⟨"opacity", .opacity, false⟩, ⟨"fill-opacity", .opacity, false⟩,
    ⟨"stroke-opacity", .opacity, false⟩, ⟨"fill", .paint, false⟩, ⟨"stroke", .paint, false⟩,
    ⟨"stroke-width", .extent, false⟩, ⟨"fill-rule", .fillRule, false⟩]

/-- The value begins with a number sign or as a color function. -/
def Rgba.Begins (value : String) : Prop :=
  (∃ digits, HexNotation value digits) ∨ ∃ rest, FunctionNotation value rest

/-- Neither `none` nor the beginning of a written color, nor the name of one. -/
structure Unrecognized (value : String) : Prop where
  not_none : Text.trimmed value ≠ "none"
  not_begins : ¬ Rgba.Begins value
  not_name : String.ofList ((Text.trim value.toList).map Char.toLower) ∉ Rgba.names.map Prod.fst

/-- The value is acceptable. -/
inductive Demand.Meets : Demand → String → Prop where
  | coordinate {value : String} {x : Float} : PathData.length value = .ok x →
      Meets .coordinate value
  | extent {value : String} {x : Float} : PathData.length value = .ok x → ¬ x < 0 →
      Meets .extent value
  | points {value : String} {xs : List Float} : PathData.numbers value = .ok xs →
      Even xs.length → Meets .points value
  | pathData {value : String} : (PathData.commands value).2 = none → Meets .pathData value
  | opacity {value : String} {x : Float} : PathData.numbers value = .ok [x] →
      Meets .opacity value
  | noPaint {value : String} : Text.trimmed value = "none" → Meets .paint value
  | color {value : String} {c : Rgba} : Rgba.parse value = .ok c → Meets .paint value
  | fillRule {value : String} : Text.trimmed value ∈ ["inherit", "nonzero", "evenodd"] →
      Meets .fillRule value

/-- The value of an attribute is not acceptable, and the error says why. -/
inductive Demand.Objects (name value : String) : Demand → ElementError → Prop where
  | coordinate {e : PathData.Error} : PathData.length value = .error e →
      Objects name value .coordinate (.invalidAttribute name value (.pathData e))
  | extent {e : PathData.Error} : PathData.length value = .error e →
      Objects name value .extent (.invalidAttribute name value (.pathData e))
  | negative {x : Float} : PathData.length value = .ok x → x < 0 →
      Objects name value .extent (.invalidAttribute name value .negative)
  | points {e : PathData.Error} : PathData.numbers value = .error e →
      Objects name value .points (.invalidAttribute name value (.pathData e))
  | odd {xs : List Float} : PathData.numbers value = .ok xs → ¬ Even xs.length →
      Objects name value .points (.invalidAttribute name value .oddCoordinates)
  | pathData {e : PathData.Error} : (PathData.commands value).2 = some e →
      Objects name value .pathData (.pathData e)
  | opacity {e : PathData.Error} : PathData.numbers value = .error e →
      Objects name value .opacity (.invalidAttribute name value (.pathData e))
  | several {xs : List Float} : PathData.numbers value = .ok xs → xs.length ≠ 1 →
      Objects name value .opacity (.invalidAttribute name value .notSingle)
  | unknown : Unrecognized value →
      Objects name value .paint (.unknownColor name (Text.trimmed value))
  | malformed {e : ColorError} : Rgba.Begins value → Rgba.parse value = .error e →
      Objects name value .paint (.invalidAttribute name (Text.trimmed value) (.color e))
  | fillRule : Text.trimmed value ∉ ["inherit", "nonzero", "evenodd"] →
      Objects name value .fillRule (.invalidAttribute name (Text.trimmed value) .unknownFillRule)

/-- The attribute is acceptable, or it is absent and need not be there. -/
inductive Check.Passes (attributes : Attributes) (check : Check) : Prop where
  | absent : attributes.find? check.name = none → check.required = false → Passes attributes check
  | valid {value : String} : attributes.find? check.name = some value →
      check.demand.Meets value → Passes attributes check

/-- The attribute is absent although it has to be there, or it is not acceptable. -/
inductive Check.Fails (tag : String) (attributes : Attributes) (check : Check) :
    ElementError → Prop where
  | missing : attributes.find? check.name = none → check.required = true →
      Fails tag attributes check (.missingAttribute tag check.name)
  | invalid {value : String} {error : ElementError} : attributes.find? check.name = some value →
      check.demand.Objects check.name value error → Fails tag attributes check error

/-- The first of the checks that fails, and how. -/
inductive FirstFault (tag : String) (attributes : Attributes) :
    List Check → ElementError → Prop where
  | here {check : Check} {rest : List Check} {error : ElementError} :
      check.Fails tag attributes error → FirstFault tag attributes (check :: rest) error
  | later {check : Check} {rest : List Check} {error : ElementError} :
      check.Passes attributes → FirstFault tag attributes rest error →
      FirstFault tag attributes (check :: rest) error

variable {tag name value : String} {attributes : Attributes} {check : Check}
  {checks more : List Check} {error error' : ElementError} {demand : Demand}

section Paint

/-- The case of a value that is written in no other way than as a name. -/
theorem Rgba.parse_of_not_begins (not_begins : ¬ Begins value) :
    parse value = match ofName? (Text.trimmed value) with
      | some color => .ok color
      | none => .error (.unknownName (Text.trimmed value)) := by
  unfold parse parseBy ofTrimmed
  split
  · rename_i digits hex
    exact absurd (.inl ⟨digits, hex⟩) not_begins
  · cases named : afterFunctionName? (Text.trim value.toList) with
    | some lowered =>
      obtain ⟨rest, form, -⟩ := afterFunctionName?_eq_some.mp named
      exact absurd (.inr ⟨rest, form⟩) not_begins
    | none =>
      unfold Text.trimmed
      cases ofName? (String.ofList (Text.trim value.toList)) <;> rfl

theorem Rgba.ofName?_eq_none {letters : List Char} :
    ofName? (String.ofList letters) = none ↔
      String.ofList (letters.map Char.toLower) ∉ names.map Prod.fst := by
  unfold ofName?
  rw [List.lookup_eq_none_iff, String.toList_ofList]
  constructor
  · intro differs member
    obtain ⟨entry, listed, same⟩ := List.mem_map.mp member
    exact bne_iff_ne.mp (differs entry listed) same.symm
  · intro absent entry listed
    refine bne_iff_ne.mpr fun same => absent ?_
    rw [same]
    exact List.mem_map_of_mem listed

theorem Unrecognized.parse_eq (unrecognized : Unrecognized value) :
    Rgba.parse value = .error (.unknownName (Text.trimmed value)) := by
  rw [Rgba.parse_of_not_begins unrecognized.not_begins]
  have unnamed := Rgba.ofName?_eq_none.mpr unrecognized.not_name
  unfold Text.trimmed
  rw [unnamed]

/-- The error of a text with the beginning of a written color is never that of a name. -/
theorem Rgba.Begins.ne_unknownName {n : String} (begins : Begins value) :
    parse value ≠ .error (.unknownName n) := by
  intro failed
  rcases begins with ⟨digits, hex⟩ | ⟨rest, function⟩
  · rw [parse_of_hexNotation hex] at failed
    cases read : ofHexDigits? digits <;> rw [read] at failed <;> cases failed
  · cases parseBy_function_error function failed

theorem objects_of_parse {e : ColorError} (not_none : Text.trimmed value ≠ "none")
    (failed : Rgba.parse value = .error e) :
    Demand.Objects name value .paint (match e with
      | .unknownName _ => .unknownColor name (Text.trimmed value)
      | e => .invalidAttribute name (Text.trimmed value) (.color e)) := by
  by_cases begins : Rgba.Begins value
  · cases e with
    | unknownName n => exact absurd failed begins.ne_unknownName
    | invalidHex text => exact .malformed begins failed
    | invalidFunction text => exact .malformed begins failed
  · rw [Rgba.parse_of_not_begins begins] at failed
    cases named : Rgba.ofName? (Text.trimmed value) with
    | some color =>
      rw [named] at failed
      cases failed
    | none =>
      rw [named] at failed
      cases failed
      exact .unknown ⟨not_none, begins, Rgba.ofName?_eq_none.mp named⟩

/-- A value with the beginning of a written color is not `none`. -/
theorem Rgba.Begins.not_none (begins : Begins value) : Text.trimmed value ≠ "none" := by
  intro none
  have letters : Text.trim value.toList = ['n', 'o', 'n', 'e'] := String.ofList_injective none
  rcases begins with ⟨digits, hex⟩ | ⟨rest, function⟩
  · rw [HexNotation, letters] at hex
    cases hex
  · have bracket := function.bracket_mem
    rw [letters] at bracket
    exact absurd bracket (by decide)

theorem parse_trimmed (value : String) : Rgba.parse (Text.trimmed value) = Rgba.parse value := by
  obtain ⟨lead, trail, trimmed⟩ := Text.exists_trimmed value.toList
  have once : Text.Trimmed (Text.trim value.toList) [] (Text.trim value.toList) [] :=
    ⟨by simp, nofun, nofun, trimmed.first, trimmed.last⟩
  unfold Rgba.parse Rgba.parseBy Text.trimmed
  rw [String.toList_ofList, once.trim_eq]

end Paint

section Exclusive

theorem Demand.Meets.not_objects (meets : demand.Meets value) :
    ¬ demand.Objects name value error := by
  intro objects
  cases objects with
  | coordinate failed | points failed | opacity failed =>
    cases meets with | _ read => cases read.symm.trans failed
  | extent failed => cases meets with | extent read => cases read.symm.trans failed
  | negative read negative =>
    cases meets with
    | extent read' nonneg =>
      cases read.symm.trans read'
      exact nonneg negative
  | odd read odd =>
    cases meets with
    | points read' even =>
      cases read.symm.trans read'
      exact odd even
  | pathData failed => cases meets with | pathData done => cases done.symm.trans failed
  | several read several =>
    cases meets with
    | opacity read' =>
      cases read.symm.trans read'
      exact several rfl
  | unknown unrecognized =>
    cases meets with
    | noPaint none => exact unrecognized.not_none none
    | color read => cases read.symm.trans unrecognized.parse_eq
  | malformed begins failed =>
    cases meets with
    | noPaint none => exact begins.not_none none
    | color read => cases read.symm.trans failed
  | fillRule unknown => cases meets with | fillRule known => exact unknown known

theorem Demand.Objects.unique (first : demand.Objects name value error)
    (second : demand.Objects name value error') : error = error' := by
  cases first with
  | coordinate failed =>
    cases second with
    | coordinate failed' => cases failed.symm.trans failed'; rfl
  | extent failed =>
    cases second with
    | extent failed' => cases failed.symm.trans failed'; rfl
    | negative read => cases read.symm.trans failed
  | negative read =>
    cases second with
    | extent failed => cases read.symm.trans failed
    | negative => rfl
  | points failed =>
    cases second with
    | points failed' => cases failed.symm.trans failed'; rfl
    | odd read => cases read.symm.trans failed
  | odd read =>
    cases second with
    | points failed => cases read.symm.trans failed
    | odd => rfl
  | pathData failed =>
    cases second with
    | pathData failed' => cases failed.symm.trans failed'; rfl
  | opacity failed =>
    cases second with
    | opacity failed' => cases failed.symm.trans failed'; rfl
    | several read => cases read.symm.trans failed
  | several read =>
    cases second with
    | opacity failed => cases read.symm.trans failed
    | several => rfl
  | unknown unrecognized =>
    cases second with
    | unknown => rfl
    | malformed begins => exact absurd unrecognized.parse_eq begins.ne_unknownName
  | malformed begins failed =>
    cases second with
    | unknown unrecognized =>
      exact absurd unrecognized.parse_eq begins.ne_unknownName
    | malformed _ failed' => cases failed.symm.trans failed'; rfl
  | fillRule =>
    cases second with
    | fillRule => rfl

theorem Check.Passes.not_fails (passes : check.Passes attributes) :
    ¬ check.Fails tag attributes error := by
  intro fails
  cases passes with
  | absent absent optional =>
    cases fails with
    | missing _ required => cases optional.symm.trans required
    | invalid found => cases absent.symm.trans found
  | valid found meets =>
    cases fails with
    | missing absent => cases absent.symm.trans found
    | invalid found' objects =>
      cases found.symm.trans found'
      exact meets.not_objects objects

theorem Check.Fails.unique (first : check.Fails tag attributes error)
    (second : check.Fails tag attributes error') : error = error' := by
  cases first with
  | missing absent =>
    cases second with
    | missing => rfl
    | invalid found => cases absent.symm.trans found
  | invalid found objects =>
    cases second with
    | missing absent => cases absent.symm.trans found
    | invalid found' objects' =>
      cases found.symm.trans found'
      exact objects.unique objects'

namespace FirstFault

theorem not_all (fault : FirstFault tag attributes checks error) :
    ¬ ∀ check ∈ checks, check.Passes attributes := by
  induction fault with
  | here fails => exact fun all => (List.forall_mem_cons.mp all).1.not_fails fails
  | later _ _ ih => exact fun all => ih (List.forall_mem_cons.mp all).2

theorem unique (first : FirstFault tag attributes checks error)
    (second : FirstFault tag attributes checks error') : error = error' := by
  induction first with
  | here fails =>
    cases second with
    | here fails' => exact fails.unique fails'
    | later passes => exact absurd fails passes.not_fails
  | later passes _ ih =>
    cases second with
    | here fails => exact absurd fails passes.not_fails
    | later _ fault => exact ih fault

theorem append_right (fault : FirstFault tag attributes checks error) (more : List Check) :
    FirstFault tag attributes (checks ++ more) error := by
  induction fault with
  | here fails => exact .here fails
  | later passes _ ih => exact .later passes ih

theorem append_left (all : ∀ check ∈ checks, check.Passes attributes)
    (fault : FirstFault tag attributes more error) :
    FirstFault tag attributes (checks ++ more) error := by
  induction checks with
  | nil => exact fault
  | cons check rest ih =>
    obtain ⟨passes, others⟩ := List.forall_mem_cons.mp all
    exact .later passes (ih others)

end FirstFault

end Exclusive

end VectorPaint
