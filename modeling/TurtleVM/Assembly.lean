import TurtleVM.Assembly.Emission

/-! # Assembling a program

A program is assembled by going through its lines twice: once to lay it out, once to emit it. Lines
may come ready or as text, and text is cut into tokens each time it is gone through. So an error in
laying out a line is found before a later line that is no line at all.

The buffer that the image is written to is given back in every case, since a failure while emitting
leaves in it what was written before.
-/

namespace TurtleVM.Assembly

variable {α : Type}

/-- Lays out lines one after the other, up to the first that cannot be read or is refused. -/
def layOutAll (read : α → Except Error Line) : List α → Layout → Except Error Layout
  | [], l => .ok l
  | item :: items, l =>
    match read item with
    | .error e => .error e
    | .ok line =>
      match l.addLine line with
      | (.ok (), l) => layOutAll read items l
      | (.error e, _) => .error e

/-- Emits lines one after the other, up to the first that cannot be read or written. -/
def emitAll (read : α → Except Error Line) : List α → Emission → Except Error Unit × Emission
  | [], e => (.ok (), e)
  | item :: items, e =>
    match read item with
    | .error error => (.error error, e)
    | .ok line =>
      match e.addLine line with
      | (.ok (), e) => emitAll read items e
      | (.error error, e) => (.error error, e)

/-- Assembles what `read` makes of the items, with room for `capacity` labels. Gives the outcome and
the buffer with the image. -/
def assembleWith (read : α → Except Error Line) (capacity : Nat) (items : List α)
    (buffer : Bytes) : Except Error Image.Descriptor × Bytes :=
  match layOutAll read items (.empty capacity) with
  | .error e => (.error e, buffer)
  | .ok l =>
    match Emission.start l buffer with
    | .error e => (.error e, buffer)
    | .ok emission =>
      let (outcome, ⟨writer, _⟩) := emitAll read items emission
      (outcome.map fun _ => writer.descriptor, writer.buffer)

/-- Assembles ready lines. -/
def assemble (capacity : Nat) (lines : List Line) (buffer : Bytes) :
    Except Error Image.Descriptor × Bytes :=
  assembleWith .ok capacity lines buffer

/-- Assembles a source text. -/
def assembleSource (capacity : Nat) (source : List Char) (buffer : Bytes) :
    Except Error Image.Descriptor × Bytes :=
  assembleWith (fun (text, number) => Line.lex number text) capacity (sourceLines source) buffer

/-! ### Whole images -/

/-- How many labels a program may have unless told otherwise. -/
def standardCapacity : Nat := 256

/-- The image of a source text, in exactly as many bytes as it needs. -/
def imageOfSource (source : List Char) : Except Error Bytes :=
  let room := CanvasSize.headerLength + Image.maxCodeLength
  let (outcome, buffer) := assembleSource standardCapacity source (Array.replicate room 0)
  outcome.map fun descriptor => buffer.extract 0 descriptor.length

end TurtleVM.Assembly
