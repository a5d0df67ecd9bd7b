import VectorPaint.Color.Basic
import VectorPaint.Color.Contrast
import VectorPaint.Color.Notation
import VectorPaint.Curve.Arc
import VectorPaint.Curve.Flatten
import VectorPaint.Curve.Text
import VectorPaint.Decimal.Numeral
import VectorPaint.Decimal.Text
import VectorPaint.Document
import VectorPaint.Drawing.Element
import VectorPaint.Drawing.Options
import VectorPaint.Drawing.Painter
import VectorPaint.Json.Parse
import VectorPaint.Markup.Token
import VectorPaint.Markup.Tree
import VectorPaint.Outline.Pen
import VectorPaint.Outline.Text
import VectorPaint.PathData.Command
import VectorPaint.PathData.Group
import VectorPaint.PathData.Reader
import VectorPaint.Plane.Basic
import VectorPaint.Proofs.Color.Alpha
import VectorPaint.Proofs.Color.Channel
import VectorPaint.Proofs.Color.Function
import VectorPaint.Proofs.Color.Hex
import VectorPaint.Proofs.Curve.Arc
import VectorPaint.Proofs.Curve.Calls
import VectorPaint.Proofs.Curve.Hull
import VectorPaint.Proofs.Decimal.Coordinate
import VectorPaint.Proofs.Decimal.Scientific
import VectorPaint.Proofs.Decimal.Spelling
import VectorPaint.Proofs.Decimal.Value
import VectorPaint.Proofs.Decimal.Written
import VectorPaint.Proofs.Drawing.Agreement
import VectorPaint.Proofs.Drawing.Checks
import VectorPaint.Proofs.Drawing.Document
import VectorPaint.Proofs.Drawing.Finite
import VectorPaint.Proofs.Drawing.Layers
import VectorPaint.Proofs.Drawing.Opacity
import VectorPaint.Proofs.Drawing.Run
import VectorPaint.Proofs.Drawing.Verdict
import VectorPaint.Proofs.Drawing.Vertices
import VectorPaint.Proofs.Outline.Box
import VectorPaint.Proofs.Outline.Continued
import VectorPaint.Proofs.Outline.Drawn
import VectorPaint.Proofs.Outline.Least
import VectorPaint.Proofs.Outline.Linked
import VectorPaint.Proofs.Outline.PenRun
import VectorPaint.Proofs.Outline.Through
import VectorPaint.Proofs.PathData.Clauses
import VectorPaint.Proofs.PathData.Commands
import VectorPaint.Proofs.PathData.Faults
import VectorPaint.Proofs.PathData.Figures
import VectorPaint.Proofs.PathData.Finite
import VectorPaint.Proofs.PathData.Grammar
import VectorPaint.Proofs.PathData.Joined
import VectorPaint.Proofs.PathData.Lengths
import VectorPaint.Proofs.PathData.Lists
import VectorPaint.Proofs.PathData.Operands
import VectorPaint.Proofs.PathData.Progress
import VectorPaint.Proofs.PathData.Together
import VectorPaint.Proofs.PathData.Trail
import VectorPaint.Proofs.Plane.Angle
import VectorPaint.Proofs.Plane.Clip
import VectorPaint.Proofs.Plane.Distance
import VectorPaint.Proofs.Plane.Least
import VectorPaint.Proofs.Plane.Level
import VectorPaint.Proofs.Raster.Balance
import VectorPaint.Proofs.Raster.Changes
import VectorPaint.Proofs.Raster.Inside
import VectorPaint.Proofs.Raster.Level
import VectorPaint.Proofs.Raster.Mask
import VectorPaint.Proofs.Raster.Paint
import VectorPaint.Proofs.Raster.Rows
import VectorPaint.Proofs.Raster.Straight
import VectorPaint.Proofs.Raster.Touched
import VectorPaint.Proofs.Scalar.Arithmetic
import VectorPaint.Proofs.Scalar.Binary32
import VectorPaint.Proofs.Scalar.Denoted
import VectorPaint.Proofs.Scalar.Exact
import VectorPaint.Proofs.Scalar.Hypot
import VectorPaint.Proofs.Scalar.Order
import VectorPaint.Proofs.Text.Pieces
import VectorPaint.Raster.Canvas
import VectorPaint.Raster.Fill
import VectorPaint.Raster.Stroke
import VectorPaint.Scalar
import VectorPaint.Scalar.Binary64
import VectorPaint.Text.Pieces
