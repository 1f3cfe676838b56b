import TurtleVM.Bytecode
import TurtleVM.CanvasSize

/-! # Writing images

A writer fills a buffer of fixed length with an image: the header first, with the standard size
until another is set, then one instruction after the other. Bytes behind the written part keep
what they held before.

Writing can stop partway, when the buffer is full. The writer then stands behind the last byte
that fitted, so operations here give their outcome together with the writer they leave.
-/

namespace TurtleVM.Image

/-- Why an instruction cannot be written. -/
inductive WriteError where
  /-- The buffer is full. -/
  | bufferTooSmall
  /-- The code would grow to `length` bytes, which offsets cannot reach. -/
  | codeTooLong (length : Nat)
  deriving DecidableEq

/-- What to tell about a writing error. -/
def WriteError.message : WriteError → String
  | bufferTooSmall => "output buffer is too small"
  | codeTooLong length =>
    "instruction stream of " ++ toString length ++ " bytes exceeds the addressable range"

/-- Length of the longest code whose offsets are all 16-bit words. -/
def maxCodeLength : Nat := 65535

/-- A buffer whose first `used` bytes are written. -/
structure Writer where
  buffer : Bytes
  /-- The size in the header. -/
  size : CanvasSize
  used : Nat
  header_le_used : CanvasSize.headerLength ≤ used
  used_le_size : used ≤ buffer.size

namespace Writer

/-- The buffer with the header in its first four bytes. -/
def putHeader (buffer : Bytes) (size : CanvasSize) : Bytes :=
  size.headerBytes.zipIdx.foldl (fun b (byte, i) => b.setIfInBounds i byte) buffer

@[simp] theorem size_putHeader (buffer : Bytes) (size : CanvasSize) :
    (putHeader buffer size).size = buffer.size := by
  simp [putHeader, CanvasSize.headerBytes, Word.bytes]

/-- A writer that has written the header with the standard size. -/
def start (buffer : Bytes) : Except WriteError Writer :=
  if h : CanvasSize.headerLength ≤ buffer.size then
    .ok ⟨putHeader buffer .standard, .standard, CanvasSize.headerLength, Nat.le_refl _, by simpa⟩
  else .error .bufferTooSmall

/-- The writer with another size in the header. -/
def setSize (w : Writer) (size : CanvasSize) : Writer :=
  { w with buffer := putHeader w.buffer size, size, used_le_size := by simpa using w.used_le_size }

/-- Offset that the next instruction gets. -/
def codeOffset (w : Writer) : Nat := w.used - CanvasSize.headerLength

/-- Writes bytes one after the other as long as they fit. -/
def putBytes : List UInt8 → Writer → Except WriteError Unit × Writer
  | [], w => (.ok (), w)
  | byte :: bytes, ⟨buffer, size, used, header_le, used_le⟩ =>
    if h : used < buffer.size then
      putBytes bytes ⟨buffer.set used byte, size, used + 1, Nat.le_succ_of_le header_le, by simpa⟩
    else (.error .bufferTooSmall, ⟨buffer, size, used, header_le, used_le⟩)

/-- Writes an instruction. Nothing is written if its code would become too long. -/
def add (i : Instruction) (w : Writer) : Except WriteError Unit × Writer :=
  let length := w.codeOffset + i.width
  if maxCodeLength < length then (.error (.codeTooLong length), w) else putBytes i.encode w

/-! #### What stays the same -/

@[simp] theorem setSize_size (w : Writer) (size : CanvasSize) : (w.setSize size).size = size := rfl

@[simp] theorem setSize_used (w : Writer) (size : CanvasSize) :
    (w.setSize size).used = w.used := rfl

@[simp] theorem size_buffer_setSize (w : Writer) (size : CanvasSize) :
    (w.setSize size).buffer.size = w.buffer.size := by
  simp [setSize]

@[simp] theorem putBytes_size (bytes : List UInt8) (w : Writer) :
    (putBytes bytes w).2.size = w.size := by
  induction bytes generalizing w with
  | nil => rfl
  | cons byte bytes ih =>
    unfold putBytes
    split
    · rw [ih]
    · rfl

@[simp] theorem size_buffer_putBytes (bytes : List UInt8) (w : Writer) :
    (putBytes bytes w).2.buffer.size = w.buffer.size := by
  induction bytes generalizing w with
  | nil => rfl
  | cons byte bytes ih =>
    unfold putBytes
    split
    · rw [ih]
      simp
    · rfl

/-- Written bytes are counted, and a failure is counted up to the end of the buffer. -/
theorem used_putBytes (bytes : List UInt8) (w : Writer) :
    (putBytes bytes w).2.used = min (w.used + bytes.length) w.buffer.size := by
  induction bytes generalizing w with
  | nil =>
    have := w.used_le_size
    simp only [putBytes, List.length_nil]
    omega
  | cons byte bytes ih =>
    have := w.used_le_size
    unfold putBytes
    split
    · rw [ih]
      simp only [Array.size_set, List.length_cons]
      omega
    · -- The buffer is full, so nothing more is counted.
      rename_i hfull
      simp only [List.length_cons]
      omega

end Writer

/-- What is known of an image once it is written. -/
structure Descriptor where
  /-- Bytes written, the header included. -/
  length : Nat
  size : CanvasSize
  deriving DecidableEq

/-- The description of the image that a writer has written. -/
def Writer.descriptor (w : Writer) : Descriptor := ⟨w.used, w.size⟩

end TurtleVM.Image
