import VectorPaint.Curve.Arc
import VectorPaint.Curve.Flatten
import VectorPaint.Decimal.Text
import VectorPaint.Plane.Basic

/-!
Texts of points, boxes, segments and curves, for reading by people.
-/
namespace VectorPaint

def Point.text (p : Point Float) : String :=
  Decimal.coordinate p.x ++ "," ++ Decimal.coordinate p.y

def Box.text (b : Box Float) : String :=
  "BBox x=" ++ Decimal.coordinate b.low.x ++ ", y=" ++ Decimal.coordinate b.low.y ++
    ", w=" ++ Decimal.coordinate b.width ++ ", h=" ++ Decimal.coordinate b.height

def Segment.text (s : Segment Float) : String :=
  "Line " ++ s.start.text ++ " " ++ s.stop.text

def Quadratic.text (c : Quadratic Float) : String :=
  "Quad " ++ c.start.text ++ " " ++ c.control.text ++ " " ++ c.stop.text

def Cubic.text (c : Cubic Float) : String :=
  "Cubic " ++ c.start.text ++ " " ++ c.control₁.text ++ " " ++ c.control₂.text ++ " " ++
    c.stop.text

/-- Angles are in radians with three places. -/
def Arc.text (arc : Arc Float) : String :=
  "Arc center:" ++ arc.center.text ++ " radius:" ++ (Point.mk arc.rx arc.ry).text ++
    " phi:" ++ Decimal.fixed 3 arc.rotation ++ " eta:" ++ Decimal.fixed 3 arc.angle ++
    " eta_delta:" ++ Decimal.fixed 3 arc.extent

end VectorPaint
