import TurtleVM.Canvas

/-! # Portable bitmaps

The binary portable bitmap format starts with `P4`, the width and the height in decimal, and then
has the rows packed as a canvas packs them. So a file is a short header before the canvas's own
bytes.
-/

namespace TurtleVM.Canvas

/-- The text before the rows. -/
def bitmapHeader (size : CanvasSize) : String :=
  "P4\n" ++ toString size.width.toNat ++ " " ++ toString size.height.toNat ++ "\n"

/-- The canvas as a binary portable bitmap. -/
def portableBitmap (c : Canvas) : Bytes := (bitmapHeader c.size).toUTF8.data ++ c.bytes

end TurtleVM.Canvas
