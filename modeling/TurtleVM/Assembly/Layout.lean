import TurtleVM.Assembly.Line
import TurtleVM.Assembly.Statement

/-! # Laying out a program

Before anything is written, every line is laid out once: its labels are bound to the length of the
code so far, its instruction makes the code longer, and its directive sets a side of the canvas. The
layout that results knows every label, those used before they are bound included.

A line that is refused may have bound labels first. Those stay, so laying out a line gives its
outcome together with the layout it leaves.
-/

namespace TurtleVM.Assembly

/-- A name bound to an offset. -/
structure Label where
  name : String
  offset : UInt16
  deriving DecidableEq

/-- Bytes that the name of a label may have. -/
def maxNameBytes : Nat := 32

/-- The name itself, if it is short enough for a label. -/
def shortName (name : String) : Except Cause String :=
  if name.utf8ByteSize ≤ maxNameBytes then .ok name else .error .nameTooLong

/-- The offset that a table binds a name to. -/
def offsetOf? (labels : List Label) (name : String) : Option UInt16 :=
  (labels.find? fun label => label.name == name).map (·.offset)

/-- What is known of a program once some of its lines are laid out. -/
structure Layout where
  /-- How many labels the table can hold. -/
  capacity : Nat
  /-- The labels in the order of their definition. -/
  labels : List Label
  /-- Bytes of code laid out. -/
  codeLength : Nat
  /-- The width of the canvas, once a directive has set it. -/
  width : Option UInt16
  /-- The height of the canvas, once a directive has set it. -/
  height : Option UInt16
  codeLength_le : codeLength ≤ Image.maxCodeLength

namespace Layout

/-- No line is laid out yet. -/
def empty (capacity : Nat) : Layout := ⟨capacity, [], 0, none, none, Nat.zero_le _⟩

/-- The canvas size, standard in each side that no directive has set. -/
def size (l : Layout) : CanvasSize :=
  ⟨l.width.getD CanvasSize.standard.width, l.height.getD CanvasSize.standard.height⟩

/-- The offset that a label is bound to. -/
def label? (l : Layout) (name : String) : Option UInt16 := offsetOf? l.labels name

/-! ### Labels -/

/-- Binds a name to the end of the code laid out so far. -/
def bind (name : String) (l : Layout) : Except Cause Layout := do
  let name ← shortName name
  if l.labels.any fun label => label.name == name then throw (.repeatedLabel name)
  if l.capacity ≤ l.labels.length then throw .labelTableFull
  return { l with labels := l.labels ++ [⟨name, UInt16.ofNat l.codeLength⟩] }

/-- Binds names one after the other, up to the first that is refused. -/
def bindAll : List String → Layout → Except Cause Unit × Layout
  | [], l => (.ok (), l)
  | name :: names, l =>
    match l.bind name with
    | .ok l => bindAll names l
    | .error cause => (.error cause, l)

/-! ### Statements -/

/-- Makes the code longer by an instruction. -/
def extend (i : Instruction) (l : Layout) : Except Cause Layout :=
  let length := l.codeLength + i.width
  if h : length ≤ Image.maxCodeLength then
    .ok { l with codeLength := length, codeLength_le := h }
  else .error (.codeTooLong length)

/-- The length set for a side, if it is set. -/
def side? (s : Side) (l : Layout) : Option UInt16 :=
  match s with
  | .width => l.width
  | .height => l.height

/-- The layout with a side of the canvas set. -/
def withSide (s : Side) (length : UInt16) (l : Layout) : Layout :=
  match s with
  | .width => { l with width := some length }
  | .height => { l with height := some length }

/-- Lays out a statement. A side that was set before is refused, yet takes the new length. -/
def addStatement (s : Statement) (l : Layout) : Except Cause Unit × Layout :=
  match s with
  | .instruction i =>
    match l.extend i with
    | .ok l => (.ok (), l)
    | .error cause => (.error cause, l)
  | .side s length =>
    -- The new length is taken in either case.
    (if (l.side? s).isSome then .error (.repeatedDirective s) else .ok (), l.withSide s length)

/-! ### Lines -/

/-- Offsets do not matter while lines are laid out. -/
def anyOffset (_ : String) : Except Cause UInt16 := return 0

/-- Lays out the labels of a line, then its statement, and tells the cause of a refusal. -/
def layOut (line : Line) (l : Layout) : Except Cause Unit × Layout :=
  match l.bindAll line.labels with
  -- The labels before the refused one stay bound.
  | (.error cause, l) => (.error cause, l)
  | (.ok (), l) =>
    match line.instruction? with
    | none => (.ok (), l)
    | some (word, operands) =>
      match Statement.ofWords word operands anyOffset with
      | .ok statement => l.addStatement statement
      | .error cause => (.error cause, l)

/-- Lays out a line. -/
def addLine (line : Line) (l : Layout) : Except Error Unit × Layout :=
  let (outcome, l) := l.layOut line
  (outcome.mapError (.onLine line.number), l)

end Layout

end TurtleVM.Assembly
