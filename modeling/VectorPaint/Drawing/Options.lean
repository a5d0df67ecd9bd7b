import VectorPaint.Color.Notation
import VectorPaint.Json.Parse
import VectorPaint.Outline.Pen

/-!
The options of a drawing, read from JSON. An object sets options by name, each at most once and no
others; an array sets them in their order. What is not set keeps its default.
-/
namespace VectorPaint

structure Options where
  curveSegments : Nat := Pen.defaultCurveSteps
  circleSegments : Nat := 64
  fillRule : FillRule := .evenOdd
  background : Rgba := ⟨255, 255, 255, 0⟩
  deriving DecidableEq

def FillRule.name : FillRule → String
  | nonZero => "nonzero"
  | evenOdd => "evenodd"

def FillRule.ofName? : String → Option FillRule
  | "nonzero" => some .nonZero
  | "evenodd" => some .evenOdd
  | _ => none

namespace Options

/-- A count: digits alone, that fit into 64 bits. -/
def readCount : Json.Value → Option Nat
  | .number literal => do
    let n ← if literal.toList.all Char.isDigit then literal.toNat? else none
    guard (n ≤ 0xFFFFFFFFFFFFFFFF)
    return n
  | _ => none

/-- A fill rule: its name, or an object that gives the name nothing. -/
def readFillRule : Json.Value → Option FillRule
  | .string name => FillRule.ofName? name
  | .object [(name, .null)] => FillRule.ofName? name
  | _ => none

def readColor : Json.Value → Option Rgba
  | .string text => (Rgba.parse text).toOption
  | _ => none

/-- Sets the option of a name. -/
def set (options : Options) (name : String) (value : Json.Value) : Option Options :=
  match name with
  | "curve_segments" => (readCount value).map fun n => { options with curveSegments := n }
  | "circle_segments" => (readCount value).map fun n => { options with circleSegments := n }
  | "fill_rule" => (readFillRule value).map fun rule => { options with fillRule := rule }
  | "background" => (readColor value).map fun color => { options with background := color }
  | _ => none

/-- The names of the options, in their order. -/
def names : List String := ["curve_segments", "circle_segments", "fill_rule", "background"]

def setAll (options : Options) (settings : List (String × Json.Value)) : Option Options :=
  settings.foldlM (fun options setting => options.set setting.1 setting.2) options

def ofValue? : Json.Value → Option Options
  | .object members => do
    guard (members.map Prod.fst).Nodup
    setAll {} members
  | .array items => do
    guard (items.length ≤ names.length)
    setAll {} (names.zip items)
  | _ => none

/-- The options that a JSON text sets. -/
def ofJson? (text : String) : Option Options := do ofValue? (← Json.parse text)

def toValue (options : Options) : Json.Value :=
  .object [("curve_segments", .ofNat options.curveSegments),
    ("circle_segments", .ofNat options.circleSegments),
    ("fill_rule", .string options.fillRule.name),
    ("background", .string options.background.text)]

def toJson (options : Options) : String := options.toValue.text

end Options
end VectorPaint
