/-! # Fixed-point coordinates

The turtle's coordinates are 64-bit words with ten fractional bits. A pixel covers the 1024
positions from its own up to the next pixel's, for negative coordinates as well.
-/

namespace TurtleVM.FixedPoint

/-- How many fractional bits a coordinate has. -/
def fractionBits : Int64 := 10

/-- The pixel that a coordinate lies in: the coordinate divided by 1024, rounded down. -/
def toPixel (coordinate : Int64) : Int64 := coordinate >>> fractionBits

/-- The first coordinate in a pixel. Bits that do not fit the word are lost. -/
def ofPixel (pixel : Int64) : Int64 := pixel <<< fractionBits

example : toPixel 1023 = 0 ∧ toPixel (-1) = -1 ∧ toPixel (-1025) = -2 := by decide

end TurtleVM.FixedPoint
