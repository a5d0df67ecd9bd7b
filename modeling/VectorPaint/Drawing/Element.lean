import Std.Data.HashMap
import Std.Data.TreeMap
import VectorPaint.Color.Notation
import VectorPaint.Drawing.Options
import VectorPaint.PathData.Command
import VectorPaint.PathData.Reader

/-!
Elements that can be drawn, read from their attributes with the geometry checked, their outlines,
and their style: its paints, the width of the stroke and the fill rule. Attributes are found by name
in any container. Those of a style that are absent take their defaults, and the first one in the
order of reading that is not acceptable is told. Why an element cannot be drawn is told in words.
-/
namespace VectorPaint

/-- Why the value of an attribute is not acceptable. -/
inductive Reason where
  | pathData (error : PathData.Error)
  | color (error : ColorError)
  | negative
  | oddCoordinates
  | notSingle
  | unknownFillRule
  deriving Repr, DecidableEq

def Reason.message : Reason → String
  | pathData error => error.message
  | color error => error.message
  | negative => "must not be negative"
  | oddCoordinates => "odd number of coordinates"
  | notSingle => "single number expected"
  | unknownFillRule => "expected \x60nonzero\x60 or \x60evenodd\x60"

inductive ElementError where
  | pathData (error : PathData.Error)
  | missingAttribute (element name : String)
  | unknownColor (name value : String)
  | invalidAttribute (name value : String) (reason : Reason)
  deriving Repr, DecidableEq

/-- A name or value as it is shown in a message. -/
def ticked (text : String) : String := "\x60" ++ text ++ "\x60"

def ElementError.message : ElementError → String
  | pathData error => error.message
  | missingAttribute element name =>
    "<" ++ element ++ "> is missing required attribute " ++ ticked name
  | unknownColor name value => "unknown color " ++ ticked value ++ " in " ++ ticked name
  | invalidAttribute name value reason =>
    "invalid " ++ ticked name ++ " value " ++ ticked value ++ ": " ++ reason.message

structure Attributes where
  find? : String → Option String

namespace Attributes

/-- Of pairs with the same name the first one counts. -/
def ofPairs (pairs : List (String × String)) : Attributes := ⟨fun name => pairs.lookup name⟩

def ofHashMap (map : Std.HashMap String String) : Attributes := ⟨fun name => map[name]?⟩

def ofTreeMap (map : Std.TreeMap String String) : Attributes := ⟨fun name => map[name]?⟩

end Attributes

inductive Element where
  | rect (x y width height : Float)
  | circle (center : Point Float) (r : Float)
  | ellipse (center : Point Float) (rx ry : Float)
  | line (segment : Segment Float)
  | polyline (points : List (Point Float))
  | polygon (points : List (Point Float))
  | path (data : String)

namespace Element

/-- The value of an attribute that an element has to have. -/
def required (attributes : Attributes) (element name : String) : Except ElementError String :=
  match attributes.find? name with
  | some value => .ok value
  | none => .error (.missingAttribute element name)

/-- A coordinate. -/
def number (attributes : Attributes) (element name : String) : Except ElementError Float := do
  let value ← required attributes element name
  (PathData.length value).mapError fun error => .invalidAttribute name value (.pathData error)

/-- A length that is not negative. -/
def size (attributes : Attributes) (element name : String) : Except ElementError Float := do
  let value ← required attributes element name
  let size ← number attributes element name
  if size < 0 then throw (.invalidAttribute name value .negative)
  return size

/-- The points of a list of coordinates, which is even. -/
def pairUp : List Float → Option (List (Point Float))
  | [] => some []
  | [_] => none
  | x :: y :: rest => (pairUp rest).map (⟨x, y⟩ :: ·)

def points (attributes : Attributes) (element : String) :
    Except ElementError (List (Point Float)) := do
  let value ← required attributes element "points"
  match PathData.numbers value with
  | .error error => throw (.invalidAttribute "points" value (.pathData error))
  | .ok coordinates =>
    match pairUp coordinates with
    | some points => return points
    | none => throw (.invalidAttribute "points" value .oddCoordinates)

/-- The element of a tag; there is none for the tags that are not drawn. -/
def read (tag : String) (attributes : Attributes) : Except ElementError (Option Element) := do
  match tag with
  | "rect" =>
    let x ← number attributes "rect" "x"
    let y ← number attributes "rect" "y"
    let width ← size attributes "rect" "width"
    let height ← size attributes "rect" "height"
    return some (.rect x y width height)
  | "circle" =>
    let cx ← number attributes "circle" "cx"
    let cy ← number attributes "circle" "cy"
    let r ← size attributes "circle" "r"
    return some (.circle ⟨cx, cy⟩ r)
  | "ellipse" =>
    let cx ← number attributes "ellipse" "cx"
    let cy ← number attributes "ellipse" "cy"
    let rx ← size attributes "ellipse" "rx"
    let ry ← size attributes "ellipse" "ry"
    return some (.ellipse ⟨cx, cy⟩ rx ry)
  | "line" =>
    let x1 ← number attributes "line" "x1"
    let y1 ← number attributes "line" "y1"
    let x2 ← number attributes "line" "x2"
    let y2 ← number attributes "line" "y2"
    return some (.line ⟨⟨x1, y1⟩, ⟨x2, y2⟩⟩)
  | "polyline" => return some (.polyline (← points attributes "polyline"))
  | "polygon" => return some (.polygon (← points attributes "polygon"))
  | "path" => return some (.path (← required attributes "path" "d"))
  | _ => return none

def tag : Element → String
  | rect .. => "rect"
  | circle .. => "circle"
  | ellipse .. => "ellipse"
  | line .. => "line"
  | polyline .. => "polyline"
  | polygon .. => "polygon"
  | path .. => "path"

/-- Circles and ellipses are never drawn with fewer segments. -/
def leastCircleSegments : Nat := 32

/-- Draws straight lines through points, from the first one on. -/
def drawThrough (pen : Pen Float) : List (Point Float) → Pen Float
  | [] => pen
  | first :: rest => rest.foldl Pen.lineTo (pen.moveTo first)

/-- The outline of an element. Shapes without extent have none. -/
def outline (options : Options) (element : Element) : Except ElementError (Outline Float) :=
  let pen : Pen Float := Pen.new options.curveSegments
  let circleSteps := max options.circleSegments leastCircleSegments
  match element with
  | .rect x y width height =>
    if width == 0 || height == 0 then .ok .empty
    else
      .ok ((pen.moveTo ⟨x, y⟩).lineTo ⟨x + width, y⟩ |>.lineTo ⟨x + width, y + height⟩
        |>.lineTo ⟨x, y + height⟩ |>.close.outline)
  | .circle center r =>
    if r == 0 then .ok .empty else .ok (pen.ellipse center r r circleSteps).outline
  | .ellipse center rx ry =>
    if rx == 0 || ry == 0 then .ok .empty else .ok (pen.ellipse center rx ry circleSteps).outline
  | .line segment => .ok ((pen.moveTo segment.start).lineTo segment.stop).outline
  | .polyline points => .ok (drawThrough pen points).outline
  | .polygon points => .ok (drawThrough pen points).close.outline
  | .path data => (PathData.outline options.curveSegments data).mapError .pathData

end Element

structure Style where
  fill : Option Rgba := some .black
  stroke : Option Rgba := none
  strokeWidth : Float := 1
  fillRule : Option FillRule := none

namespace Style

/-- An opacity, held between zero and one; it is full when absent. -/
def opacity (attributes : Attributes) (name : String) : Except ElementError Float :=
  match attributes.find? name with
  | none => .ok 1
  | some value =>
    match PathData.numbers value with
    | .error error => .error (.invalidAttribute name value (.pathData error))
    | .ok [opacity] => .ok (Scalar.clamp opacity 0 1)
    | .ok _ => .error (.invalidAttribute name value .notSingle)

/-- The value of an attribute without the blanks around it. -/
def trimmed? (attributes : Attributes) (name : String) : Option String :=
  (attributes.find? name).map fun value => String.ofList (Text.trim value.toList)

/-- A paint: a color, or nothing. -/
def paint (attributes : Attributes) (name : String) (absent : Option Rgba) :
    Except ElementError (Option Rgba) :=
  match trimmed? attributes name with
  | none => .ok absent
  | some "none" => .ok none
  | some value =>
    match Rgba.parse value with
    | .ok color => .ok (some color)
    | .error (.unknownName _) => .error (.unknownColor name value)
    | .error error => .error (.invalidAttribute name value (.color error))

def readStrokeWidth (attributes : Attributes) : Except ElementError Float :=
  match attributes.find? "stroke-width" with
  | none => .ok 1
  | some value =>
    match PathData.length value with
    | .error error => .error (.invalidAttribute "stroke-width" value (.pathData error))
    | .ok width =>
      if width < 0 then .error (.invalidAttribute "stroke-width" value .negative) else .ok width

def readFillRule (attributes : Attributes) : Except ElementError (Option FillRule) :=
  match trimmed? attributes "fill-rule" with
  | none => .ok none
  | some "inherit" => .ok none
  | some value =>
    match FillRule.ofName? value with
    | some rule => .ok (some rule)
    | none => .error (.invalidAttribute "fill-rule" value .unknownFillRule)

def read (attributes : Attributes) : Except ElementError Style := do
  let whole ← opacity attributes "opacity"
  let fillOpacity := whole * (← opacity attributes "fill-opacity")
  let strokeOpacity := whole * (← opacity attributes "stroke-opacity")
  let fill ← paint attributes "fill" (some .black)
  let stroke ← paint attributes "stroke" none
  let strokeWidth ← readStrokeWidth attributes
  let fillRule ← readFillRule attributes
  return {
    fill := fill.map (·.withAlpha fillOpacity)
    stroke := stroke.map (·.withAlpha strokeOpacity)
    strokeWidth, fillRule }

end Style
end VectorPaint
