import VectorPaint.Outline.Pen
import VectorPaint.Curve.Text

/-!
Texts of outlines, for reading by people: one line for each segment.
-/
namespace VectorPaint

def Chain.text (c : Chain Float) : String :=
  let lines := ("Move " ++ c.start.text) :: c.segments.toList.map Segment.text ++
    [if c.closed then "Close" else "End"]
  String.join (lines.map (· ++ "\n"))

def Outline.text (o : Outline Float) : String :=
  if o.chains.isEmpty then "Empty" else String.join (o.chains.toList.map Chain.text)

end VectorPaint
