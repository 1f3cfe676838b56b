import TurtleVM.Word

/-! # Sets of offsets

A jump target is a 16-bit word, so a set of possible targets is a row of 65536 marks. Eight of them
share a byte, the first one in the least significant bit. Marking an offset that no target can
express changes nothing.
-/

namespace TurtleVM.Bytecode

/-- How many offsets a target can express. -/
def addressable : Nat := 65536

/-- How many bytes hold the marks. -/
def markBytes : Nat := 8192

/-- A set of offsets below `addressable`. -/
structure OffsetSet where
  marks : Vector UInt8 markBytes

namespace OffsetSet

/-- No offset is in the set. -/
def empty : OffsetSet := ⟨Vector.replicate markBytes 0⟩

/-- The byte that an offset's mark belongs to, and the mask of its bit. The row of marks may end
before that byte. -/
def place (offset : Nat) : Nat × UInt8 := (offset / 8, 1 <<< UInt8.ofNat (offset % 8))

/-- The set with one more offset, if a target can express it. -/
def mark (s : OffsetSet) (offset : Nat) : OffsetSet :=
  let (index, mask) := place offset
  if h : index < markBytes then ⟨s.marks.set index (s.marks[index] ||| mask)⟩ else s

/-- Whether the offset is in the set. -/
def contains (s : OffsetSet) (offset : Nat) : Bool :=
  let (index, mask) := place offset
  if h : index < markBytes then s.marks[index] &&& mask != 0 else false

/-- The set of all addressable offsets of a list. -/
def ofList (offsets : List Nat) : OffsetSet := offsets.foldl mark empty

@[simp] theorem contains_empty (offset : Nat) : empty.contains offset = false := by
  simp [contains, empty]

end OffsetSet

end TurtleVM.Bytecode
