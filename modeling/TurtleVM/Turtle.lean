import TurtleVM.CanvasSize
import TurtleVM.FixedPoint
import TurtleVM.Heading

/-! # The turtle

The turtle stands at a point in fixed-point coordinates and holds a pen. It starts in the middle of
the canvas with the pen up, and only ever moves along a heading. It does not know where the canvas
ends: it may walk off it and come back.
-/

namespace TurtleVM

/-- The turtle's place and its pen. -/
structure Turtle where
  x : Int64
  y : Int64
  /-- The pen is down. -/
  drawing : Bool

namespace Turtle

/-- The turtle in the middle of a canvas with its pen up. -/
def centred (size : CanvasSize) : Turtle where
  x := FixedPoint.ofPixel (Int64.ofNat (size.width.toNat / 2))
  y := FixedPoint.ofPixel (Int64.ofNat (size.height.toNat / 2))
  drawing := false

/-- The pixel under the turtle. -/
def pixel (t : Turtle) : Int × Int :=
  ((FixedPoint.toPixel t.x).toInt, (FixedPoint.toPixel t.y).toInt)

/-- The turtle after one move along a heading. Its coordinates wrap around. -/
def advance (heading : Int32) (t : Turtle) : Turtle :=
  let (dx, dy) := Heading.unitVector heading
  { t with x := t.x + Int64.ofInt dx, y := t.y + Int64.ofInt dy }

@[simp] theorem advance_drawing (heading : Int32) (t : Turtle) :
    (t.advance heading).drawing = t.drawing := rfl

@[simp] theorem centred_drawing (size : CanvasSize) : (centred size).drawing = false := rfl

end Turtle

end TurtleVM
