/-! # Lines and words

A source text is cut into lines at line feeds, and a line into words at blanks. Blanks are the
characters with the Unicode property White_Space, so a no-break space or an ideographic space
separates words as a plain space does.
-/

namespace TurtleVM.Text

/-! ### Blanks -/

/-- The characters with the Unicode property White_Space. -/
def isBlank (c : Char) : Bool :=
  let n := c.toNat
  (9 ≤ n && n ≤ 13) || n == 0x20 || n == 0x85 || n == 0xA0 || n == 0x1680 ||
    (0x2000 ≤ n && n ≤ 0x200A) || n == 0x2028 || n == 0x2029 || n == 0x202F || n == 0x205F ||
    n == 0x3000

/-- The maximal runs of characters that are not blank, in order. -/
def words (text : List Char) : List (List Char) :=
  (text.splitOnP isBlank).filter fun word => !word.isEmpty

example : words "  STO\tA 3 ".toList = ["STO".toList, "A".toList, "3".toList] := by decide

/-! ### Lines -/

/-- A carriage return that ends the line is dropped, and only one. -/
def dropReturn (line : List Char) : List Char :=
  if line.getLast? = some '\r' then line.dropLast else line

/-- The lines of a text. Each line feed ends a line, together with a carriage return right
before it; what follows the last line feed is a line only if it is not empty. -/
def lines (text : List Char) : List (List Char) :=
  let pieces := text.splitOn '\n'
  pieces.dropLast.map dropReturn ++ pieces.getLast?.toList.filter fun piece => !piece.isEmpty

example : lines "a\r\n\nb\r".toList = ["a".toList, [], "b\r".toList] := by decide
example : lines "a\n".toList = ["a".toList] := by decide
example : lines [] = [] := by decide

end TurtleVM.Text
