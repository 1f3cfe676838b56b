import TurtleVM.Assembly.Layout

/-! # Emitting a program

Once every line is laid out, the same lines are gone through again and their instructions written,
now with the offsets of all labels known. Directives and label definitions have done their work
and are passed over.
-/

namespace TurtleVM.Assembly

/-- An image being written with a finished table of labels. -/
structure Emission where
  writer : Image.Writer
  labels : List Label

namespace Emission

/-- Starts an image in a buffer with the size and the labels of a layout. -/
def start (l : Layout) (buffer : Bytes) : Except Error Emission :=
  match Image.Writer.start buffer with
  | .ok writer => .ok ⟨writer.setSize l.size, l.labels⟩
  | .error e => .error ⟨none, .write e⟩

/-- The offset of a label that a jump names. -/
def resolve (labels : List Label) (name : String) : Except Cause UInt16 := do
  let name ← shortName name
  match offsetOf? labels name with
  | some offset => return offset
  | none => throw (.unknownLabel name)

/-- Writes the instruction of a line, if it has one, and tells the cause of a failure. -/
def emit (line : Line) (e : Emission) : Except Cause Unit × Emission :=
  match line.instruction? with
  | none => (.ok (), e)
  | some (word, operands) =>
    match Statement.ofWords word operands (resolve e.labels) with
    | .error cause => (.error cause, e)
    | .ok (.side _ _) => (.ok (), e)
    | .ok (.instruction i) =>
      let ⟨writer, labels⟩ := e
      let (outcome, writer) := writer.add i
      (outcome.mapError .write, ⟨writer, labels⟩)

/-- Writes the instruction of a line. -/
def addLine (line : Line) (e : Emission) : Except Error Unit × Emission :=
  let (outcome, e) := e.emit line
  (outcome.mapError (.onLine line.number), e)

end Emission

end TurtleVM.Assembly
