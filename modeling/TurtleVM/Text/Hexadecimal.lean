/-! # Hexadecimal text

Offsets and bytes are shown to people as `0x` and lower-case digits, padded with zeros to a
width fixed by the place they stand in: four digits for an offset, two for a byte. A number
that needs more digits than the width gets them all.
-/

namespace TurtleVM.Text

/-- The number after the mark `0x`, in at least `width` lower-case hexadecimal digits. -/
def hexadecimal (width n : Nat) : String :=
  let digits := Nat.toDigits 16 n
  "0x" ++ String.ofList (List.replicate (width - digits.length) '0' ++ digits)

example : hexadecimal 4 10 = "0x000a" := by decide
example : hexadecimal 4 65536 = "0x10000" := by decide
example : hexadecimal 2 0 = "0x00" := by decide

/-- Spaces are added on the right until the text has `width` characters. -/
def padRight (width : Nat) (text : String) : String :=
  text ++ String.ofList (List.replicate (width - text.length) ' ')

end TurtleVM.Text
