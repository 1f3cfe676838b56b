import TurtleVM.CanvasSize

/-! # The canvas

One bit per pixel, row after row from the top, the leftmost pixel in the most significant bit. Each
row starts on a new byte. The pixels take the front of a buffer that may be longer; the rest of
the buffer is never touched.

Points may lie anywhere. Those off the canvas are never set.
-/

namespace TurtleVM

/-! ### Where a pixel is stored -/

/-- The bit of a byte that holds the pixel of a column. -/
def columnMask (column : Nat) : UInt8 := 0x80 >>> UInt8.ofNat (column % 8)

/-- The byte that holds a point's pixel and the mask of its bit, if the point is on the canvas. -/
def CanvasSize.place? (s : CanvasSize) (x y : Int) : Option (Nat × UInt8) :=
  if s.Contains x y then
    some (y.toNat * s.stride + x.toNat / 8, columnMask x.toNat)
  else none

/-- A point on the canvas has its pixel in one of the bytes of the rows. -/
theorem CanvasSize.lt_byteCount_of_place? {s : CanvasSize} {x y : Int} {index : Nat}
    {mask : UInt8} (h : s.place? x y = some (index, mask)) : index < s.byteCount := by
  unfold place? at h
  split at h
  · rename_i hc
    obtain ⟨hx, hxw, hy, hyh⟩ := hc
    simp only [Option.some.injEq, Prod.mk.injEq] at h
    obtain ⟨rfl, -⟩ := h
    -- The column lies in the row, and the row in the canvas.
    have hcol : x.toNat / 8 < s.stride := by
      simp only [stride]
      omega
    have hrow : y.toNat + 1 ≤ s.height.toNat := by omega
    calc y.toNat * s.stride + x.toNat / 8
        < y.toNat * s.stride + s.stride := by omega
      _ = (y.toNat + 1) * s.stride := by rw [Nat.add_mul, Nat.one_mul]
      _ ≤ s.height.toNat * s.stride := Nat.mul_le_mul_right _ hrow
      _ = s.byteCount := Nat.mul_comm _ _
  · cases h

/-- How many bits of a byte are set. -/
def bitCount (byte : UInt8) : Nat :=
  if byte = 0 then 0 else (List.range 8).countP fun column => byte &&& columnMask column != 0

/-! ### Canvases -/

/-- A buffer whose front holds the pixels of a canvas. -/
structure Canvas where
  size : CanvasSize
  buffer : Bytes
  fits : size.byteCount ≤ buffer.size

namespace Canvas

/-- The buffer with its first `count` bytes cleared. -/
def clear (count : Nat) (buffer : Bytes) : Bytes :=
  Nat.fold count (fun i _ b => b.setIfInBounds i 0) buffer

@[simp] theorem size_clear (count : Nat) (buffer : Bytes) :
    (clear count buffer).size = buffer.size := by
  induction count with
  | zero => rfl
  | succ n ih => simpa [clear] using ih

/-- A blank canvas in the front of a buffer, which has to be long enough. -/
def blank (size : CanvasSize) (buffer : Bytes) : Except LoadError Canvas :=
  if h : size.byteCount ≤ buffer.size then
    .ok ⟨size, clear size.byteCount buffer, by simpa⟩
  else .error (.bufferTooSmall size.byteCount buffer.size)

/-- Sets the pixel of a point, and tells whether the point is on the canvas. -/
def plot (x y : Int) : Canvas → Bool × Canvas
  | ⟨size, buffer, fits⟩ =>
    match size.place? x y with
    | none => (false, ⟨size, buffer, fits⟩)
    | some (index, mask) => (true, ⟨size, buffer.modify index (· ||| mask), by simpa⟩)

/-- Whether the pixel of a point is set. -/
def get (c : Canvas) (x y : Int) : Bool :=
  match c.size.place? x y with
  | none => false
  | some (index, mask) => c.buffer.getD index 0 &&& mask != 0

/-- Plotting tells exactly whether the point is on the canvas. -/
theorem plot_fst (c : Canvas) (x y : Int) : (c.plot x y).1 = decide (c.size.Contains x y) := by
  obtain ⟨size, buffer, fits⟩ := c
  by_cases hc : size.Contains x y <;> simp [plot, CanvasSize.place?, hc]

@[simp] theorem plot_size (c : Canvas) (x y : Int) : (c.plot x y).2.size = c.size := by
  obtain ⟨size, buffer, fits⟩ := c
  by_cases hc : size.Contains x y <;> simp [plot, CanvasSize.place?, hc]

@[simp] theorem size_buffer_plot (c : Canvas) (x y : Int) :
    (c.plot x y).2.buffer.size = c.buffer.size := by
  obtain ⟨size, buffer, fits⟩ := c
  by_cases hc : size.Contains x y <;> simp [plot, CanvasSize.place?, hc]

/-! ### The pixels as a whole -/

/-- The rows, each padded to whole bytes, without the rest of the buffer. -/
def bytes (c : Canvas) : Bytes := c.buffer.extract 0 c.size.byteCount

/-- The bytes of one row. -/
def row? (c : Canvas) (y : Nat) : Option Bytes :=
  let stop := (y + 1) * c.size.stride
  if stop ≤ c.size.byteCount then some (c.buffer.extract (y * c.size.stride) stop) else none

/-- How many bits of the rows are set. -/
def count (c : Canvas) : Nat := c.bytes.foldl (fun n byte => n + bitCount byte) 0

/-- The points whose pixels are set, from the top row down and from left to right. -/
def points (c : Canvas) : List (Nat × Nat) :=
  (List.range c.size.height.toNat).flatMap fun (y : Nat) =>
    ((List.range c.size.width.toNat).filter fun (x : Nat) => c.get x y).map fun x => (x, y)

end Canvas

end TurtleVM
