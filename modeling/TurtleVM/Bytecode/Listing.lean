import TurtleVM.Bytecode.Walk
import TurtleVM.CanvasSize

/-! # Listings

A listing shows code as text: the canvas size as the two directives that would set it, then each
instruction after its offset. The listing of a code that cannot be read to its end closes with a
comment that says why.
-/

namespace TurtleVM.Bytecode

/-- The line of a listing for an item of the walk. -/
def Item.line : Item → String
  | .ok l => Text.hexadecimal 4 l.offset ++ "  " ++ l.instruction.text
  | .error u => "; " ++ u.message

/-- The directives that set a canvas size. -/
def sizeLines (size : CanvasSize) : List String :=
  ["WIDTH " ++ toString size.width.toNat, "HEIGHT " ++ toString size.height.toNat]

/-- The lines of a listing. -/
def listingLines (header : Option CanvasSize) (code : Bytes) : List String :=
  (header.map sizeLines).getD [] ++ (walk code).map Item.line

/-- The text of a listing, each line closed by a line feed. -/
def listing (header : Option CanvasSize) (code : Bytes) : String :=
  String.join ((listingLines header code).map (· ++ "\n"))

end TurtleVM.Bytecode
