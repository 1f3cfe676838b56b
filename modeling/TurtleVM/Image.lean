import TurtleVM.CanvasSize

/-! # Program images

An image is a program ready to run: code, usually after a header with the canvas size. Nothing in
the bytes tells whether there is a header, so whoever loads an image says it.
-/

namespace TurtleVM

/-- A loaded program. -/
structure Image where
  /-- The size in the header, if there is a header. -/
  header : Option CanvasSize
  code : Bytes

namespace Image

/-- The image of a code without header. -/
def bare (code : Bytes) : Image := ⟨none, code⟩

/-- The image whose first four bytes are the header. -/
def load (bytes : Bytes) : Except LoadError Image :=
  if h : bytes.size < CanvasSize.headerLength then .error (.headerTooShort bytes.size)
  else
    have : 4 ≤ bytes.size := Nat.le_of_not_lt h
    do
      let size ← CanvasSize.ofSides (Word.ofBytes bytes[0] bytes[1])
        (Word.ofBytes bytes[2] bytes[3])
      return ⟨some size, bytes.extract CanvasSize.headerLength⟩

/-- The size of the canvas the program draws on. -/
def size (image : Image) : CanvasSize := image.header.getD .standard

end Image

end TurtleVM
