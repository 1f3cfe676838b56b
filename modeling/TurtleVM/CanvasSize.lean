import TurtleVM.Word

/-! # Canvas sizes

A canvas is at most 65535 pixels wide and high. Its size travels in the four bytes before the
code: the width, then the height. A program that is not told a size draws on 512 by 512 pixels.

Rows are stored one after the other, each padded to whole bytes.
-/

namespace TurtleVM

/-- Why a program cannot be loaded. -/
inductive LoadError where
  /-- The image ends inside the four bytes of the size. -/
  | headerTooShort (length : Nat)
  /-- A side of the canvas is zero. -/
  | emptyCanvas
  /-- The memory for the pixels is too small. -/
  | bufferTooSmall (required actual : Nat)
  deriving DecidableEq

/-- What to tell about a loading error. -/
def LoadError.message : LoadError → String
  | headerTooShort length =>
    "program header needs 4 bytes but the image has " ++ toString length
  | emptyCanvas => "canvas dimensions must be non zero"
  | bufferTooSmall required actual =>
    "canvas buffer holds " ++ toString actual ++ " bytes but " ++ toString required ++
      " are needed"

/-- Width and height in pixels. -/
structure CanvasSize where
  width : UInt16
  height : UInt16
  deriving DecidableEq

namespace CanvasSize

/-- The size of a program that does not choose one. -/
def standard : CanvasSize := ⟨512, 512⟩

/-- The size with the given sides, of which neither may be zero. -/
def ofSides (width height : UInt16) : Except LoadError CanvasSize :=
  if width = 0 ∨ height = 0 then .error .emptyCanvas else .ok ⟨width, height⟩

/-- Length of the header. -/
def headerLength : Nat := 4

/-- The size as the header of an image. -/
def headerBytes (s : CanvasSize) : List UInt8 := Word.bytes s.width ++ Word.bytes s.height

/-- Bytes in a row. -/
def stride (s : CanvasSize) : Nat := (s.width.toNat + 7) / 8

/-- Bytes in all rows. -/
def byteCount (s : CanvasSize) : Nat := s.stride * s.height.toNat

/-- The point is on the canvas. -/
def Contains (s : CanvasSize) (x y : Int) : Prop :=
  0 ≤ x ∧ x < s.width.toNat ∧ 0 ≤ y ∧ y < s.height.toNat

instance (s : CanvasSize) (x y : Int) : Decidable (s.Contains x y) :=
  inferInstanceAs (Decidable (_ ∧ _ ∧ _ ∧ _))

@[simp] theorem length_headerBytes (s : CanvasSize) : s.headerBytes.length = headerLength := rfl

end CanvasSize

end TurtleVM
