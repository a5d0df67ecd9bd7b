import VectorPaint.Drawing.Painter
import VectorPaint.Markup.Tree

/-!
Drawing whole documents. The root gives the size of the canvas; all elements below it are drawn in
their order, but for definitions, which are left out with all that is below them.
-/
namespace VectorPaint

inductive DocumentError where
  | malformed
  | missingDimension (name : String)
  | invalidDimension (name value : String)
  | tooLarge (width height : Nat)
  deriving Repr, DecidableEq

namespace Document

/-- The number of pixels that a canvas may have. -/
def maxPixels : Nat := 8192 * 8192

end Document

def DocumentError.message : DocumentError → String
  | malformed => "malformed document"
  | missingDimension name => "root element is missing " ++ ticked name ++ " attribute"
  | invalidDimension name value =>
    "root " ++ ticked name ++ " must be a positive integer, found \"" ++ value ++ "\""
  | tooLarge width height =>
    "canvas " ++ toString width ++ "x" ++ toString height ++ " exceeds the limit of " ++
      toString Document.maxPixels ++ " pixels"

namespace Document

/-- The whole number of 32 bits that a float is, from one on. -/
def wholeSize? (size : Float) : Option Nat :=
  let n := (Binary64.floor size).toNat
  if 1 ≤ n ∧ n ≤ 0xFFFFFFFF ∧ size == Float.ofNat n then some n else none

/-- The size of the canvas along one axis. -/
def dimension (root : Markup.Node) (name : String) : Except DocumentError Nat :=
  match root.attributes.lookup name with
  | none => .error (.missingDimension name)
  | some value =>
    match (PathData.length value).toOption.bind wholeSize? with
    | none => .error (.invalidDimension name value)
    | some size => .ok size

/-- Draws the elements below a node, each before those below it. Nodes that are no elements are
passed over, and so are definitions with all that is below them. -/
def drawBelow (painter : Painter) : Markup.Node → Painter
  | .element _ _ children =>
    (children.filter Markup.Node.isElement).foldl (fun painter child =>
      if child.name = "defs" then painter
      else drawBelow (painter.draw child.name (.ofPairs child.attributes)).2 child) painter
  | _ => painter

/-- Draws a document whose tree is found by `read?`. -/
def renderBy (read? : String → Option Markup.Node) (text : String) (options : Options) :
    Except DocumentError Painter := do
  match read? text with
  | none => throw .malformed
  | some root =>
    let width ← dimension root "width"
    let height ← dimension root "height"
    if maxPixels < width * height then throw (.tooLarge width height)
    return drawBelow (Painter.new width height options) root

/-- Draws a document of markup. -/
def render (text : String) (options : Options) : Except DocumentError Painter :=
  renderBy Markup.parse? text options

end Document
end VectorPaint
