import Mathlib.Data.Nat.Bitwise
import TurtleVM.Canvas.PortableBitmap
import TurtleVM.Proofs.Numerals
import TurtleVM.Proofs.PlottedPoints

/-! # Portable bitmaps are read back

A reader of binary portable bitmaps passes over the magic `P4`, reads two decimal numbers with
whitespace before each, passes over one more byte of whitespace, and takes all that follows for the
rows. The first byte of the rows may well be a digit or whitespace itself. Since exactly one byte is
passed over behind the height, the reader still finds where the rows start: `read?_header_append`.

So the bitmap of a drawn canvas is read as its sides and its pixels
(`portableBitmap_reads_back`), and different pictures have different bitmaps.
-/

namespace TurtleVM

/-- What a reader makes of a bitmap: the sides, and the bytes of each row. -/
structure Bitmap where
  width : Nat
  height : Nat
  rows : List (List UInt8)
  deriving DecidableEq

namespace Bitmap

/-! ### The reader -/

/-- Whitespace of a header: the space, and the bytes from the tab to the carriage return. -/
def isSpace (byte : UInt8) : Bool := byte == 32 || (9 ≤ byte && byte ≤ 13)

/-- The byte of a decimal digit. -/
def isDigit (byte : UInt8) : Bool := 48 ≤ byte && byte ≤ 57

/-- The number that decimal digits write. -/
def decimal (digits : List UInt8) : Nat :=
  digits.foldl (fun n byte => 10 * n + (byte.toNat - 48)) 0

/-- Passes over whitespace, of which there must be some. -/
def skipSpaces? : List UInt8 → Option (List UInt8)
  | [] => none
  | byte :: bytes => if isSpace byte then some (bytes.dropWhile isSpace) else none

/-- Reads a decimal number. -/
def readNumber? (bytes : List UInt8) : Option (Nat × List UInt8) :=
  match bytes.takeWhile isDigit with
  | [] => none
  | digits => some (decimal digits, bytes.dropWhile isDigit)

/-- Reads rows of the same length, with nothing behind the last. -/
def readRows? (length : Nat) : Nat → List UInt8 → Option (List (List UInt8))
  | 0, bytes => if bytes = [] then some [] else none
  | count + 1, bytes =>
    if length ≤ bytes.length then
      (readRows? length count (bytes.drop length)).map (bytes.take length :: ·)
    else none

/-- Reads the sides and the rows behind the magic. -/
def readSides? (bytes : List UInt8) : Option Bitmap := do
  let (width, bytes) ← readNumber? (← skipSpaces? bytes)
  let (height, bytes) ← readNumber? (← skipSpaces? bytes)
  match bytes with
  | [] => none
  | byte :: raster =>
    if isSpace byte then
      return ⟨width, height, ← readRows? ((width + 7) / 8) height raster⟩
    else none

/-- Reads a bitmap. -/
def read? : List UInt8 → Option Bitmap
  | 80 :: 52 :: bytes => readSides? bytes
  | _ => none

/-- The bit for a column of a row, where the bits of a byte go from the most significant one on the
left. There is none beyond the bytes of the row, nor below the last row. -/
def bit (b : Bitmap) (column row : Nat) : Bool :=
  ((b.rows[row]?.getD [])[column / 8]?.getD 0).toNat.testBit (7 - column % 8)

/-! ### Reading what is written -/

/-- The bytes of the decimal text of a number. -/
def digitBytes (n : Nat) : List UInt8 := (Nat.toDigits 10 n).map fun c => UInt8.ofNat c.toNat

variable {bytes rest raster : List UInt8} {rows : List (List UInt8)} {n length : Nat}

theorem exists_digitByte_of_mem {byte : UInt8} (h : byte ∈ digitBytes n) :
    ∃ d < 10, byte = UInt8.ofNat d.digitChar.toNat := by
  obtain ⟨c, hc, rfl⟩ := List.mem_map.mp h
  obtain ⟨d, hd, rfl⟩ := Text.Literal.exists_digitChar_of_mem_toDigits (by decide) hc
  exact ⟨d, hd, rfl⟩

theorem isDigit_of_mem_digitBytes {byte : UInt8} (h : byte ∈ digitBytes n) :
    isDigit byte = true := by
  have hall : ∀ d < 10, isDigit (UInt8.ofNat d.digitChar.toNat) = true := by decide
  obtain ⟨d, hd, rfl⟩ := exists_digitByte_of_mem h
  exact hall d hd

theorem digitBytes_ne_nil (n : Nat) : digitBytes n ≠ [] := by
  intro h
  exact Nat.toDigits_ne_nil (List.map_eq_nil_iff.mp h)

/-- Digits are read as the number they were written for. -/
theorem decimal_digitBytes (n : Nat) : decimal (digitBytes n) = n := by
  have hdigit : ∀ d < 10, (UInt8.ofNat d.digitChar.toNat).toNat - 48 = d.digitChar.toNat - 48 := by
    decide
  have hchars : Nat.ofDigitChars 10 (Nat.toDigits 10 n) 0 = n :=
    Nat.ofDigitChars_toDigits (by decide) (by decide)
  rw [Nat.ofDigitChars_eq_foldl] at hchars
  rw [decimal, digitBytes, List.foldl_map]
  refine Eq.trans ?_ hchars
  apply List.foldl_ext
  intro value c hc
  obtain ⟨d, hd, rfl⟩ := Text.Literal.exists_digitChar_of_mem_toDigits (by decide) hc
  exact congrArg (10 * value + ·) (hdigit d hd)

/-- A number ends before the first byte that is no digit. -/
theorem readNumber?_digitBytes_append (n : Nat) (rest : List UInt8) {byte : UInt8}
    (h : isDigit byte = false) :
    readNumber? (digitBytes n ++ byte :: rest) = some (n, byte :: rest) := by
  have htake : (digitBytes n ++ byte :: rest).takeWhile isDigit = digitBytes n := by
    rw [List.takeWhile_append_of_pos fun _ => isDigit_of_mem_digitBytes,
      List.takeWhile_cons_of_neg (by simp [h]), List.append_nil]
  have hdrop : (digitBytes n ++ byte :: rest).dropWhile isDigit = byte :: rest := by
    rw [List.dropWhile_append_of_pos fun _ => isDigit_of_mem_digitBytes,
      List.dropWhile_cons_of_neg (by simp [h])]
  unfold readNumber?
  rw [htake, hdrop]
  split
  · rename_i hnil
    exact absurd hnil (digitBytes_ne_nil n)
  · rw [decimal_digitBytes]

/-- Of one byte of whitespace before a number, only this byte is passed over. -/
theorem skipSpaces?_cons_digitBytes_append (n : Nat) (rest : List UInt8) {byte : UInt8}
    (h : isSpace byte = true) :
    skipSpaces? (byte :: (digitBytes n ++ rest)) = some (digitBytes n ++ rest) := by
  have hdigit : ∀ d < 10, isSpace (UInt8.ofNat d.digitChar.toNat) = false := by decide
  obtain ⟨first, others, hfirst⟩ := List.exists_cons_of_ne_nil (digitBytes_ne_nil n)
  obtain ⟨d, hd, rfl⟩ := exists_digitByte_of_mem (hfirst ▸ List.mem_cons_self)
  rw [skipSpaces?, if_pos h, hfirst, List.cons_append,
    List.dropWhile_cons_of_neg (by rw [hdigit d hd]; decide)]

/-- The text before the rows, byte by byte. -/
def header (width height : Nat) : List UInt8 :=
  80 :: 52 :: 10 :: (digitBytes width ++ 32 :: (digitBytes height ++ [10]))

/-- Whatever the rows start with, the header ends where they start. -/
theorem read?_header_append (width height : Nat) (raster : List UInt8) :
    read? (header width height ++ raster) =
      (readRows? ((width + 7) / 8) height raster).map fun rows => ⟨width, height, rows⟩ := by
  have hspace : isSpace 32 = true ∧ isDigit 32 = false := by decide
  have hnewline : isSpace 10 = true ∧ isDigit 10 = false := by decide
  have hbytes : header width height ++ raster = 80 :: 52 :: 10 ::
      (digitBytes width ++ 32 :: (digitBytes height ++ 10 :: raster)) := by
    simp only [header, List.cons_append, List.append_assoc, List.nil_append]
  rw [hbytes]
  simp only [read?, readSides?, skipSpaces?_cons_digitBytes_append _ _ hnewline.1,
    readNumber?_digitBytes_append _ _ hspace.2, skipSpaces?_cons_digitBytes_append _ _ hspace.1,
    readNumber?_digitBytes_append _ _ hnewline.2, hnewline.1, Option.bind_eq_bind,
    Option.bind_some, if_true]
  cases readRows? ((width + 7) / 8) height raster with
  | none => rfl
  | some rows => rfl

theorem exists_readRows? (h : bytes.length = length * n) :
    ∃ rows, readRows? length n bytes = some rows := by
  induction n generalizing bytes with
  | zero =>
    have hnil : bytes = [] := List.length_eq_zero_iff.mp h
    exact ⟨[], if_pos hnil⟩
  | succ n ih =>
    rw [Nat.mul_succ] at h
    have hdrop : (bytes.drop length).length = length * n := by
      rw [List.length_drop]
      omega
    obtain ⟨rows, hrows⟩ := ih hdrop
    refine ⟨bytes.take length :: rows, ?_⟩
    rw [readRows?, if_pos (by omega), hrows]
    rfl

/-- Rows are read one after the other. -/
theorem getElem?_of_readRows? (h : readRows? length n bytes = some rows) (y i : Nat) :
    (rows[y]?.getD [])[i]? = if y < n ∧ i < length then bytes[y * length + i]? else none := by
  induction n generalizing bytes rows y with
  | zero =>
    rw [readRows?] at h
    split at h
    · cases h
      simp
    · cases h
  | succ n ih =>
    rw [readRows?] at h
    split at h
    · obtain ⟨others, hothers, rfl⟩ := Option.map_eq_some_iff.mp h
      cases y with
      | zero =>
        rw [List.getElem?_cons_zero, Option.getD_some, List.getElem?_take]
        simp
      | succ y =>
        have hplace : length + (y * length + i) = (y + 1) * length + i := by
          rw [Nat.add_mul, Nat.one_mul]
          omega
        rw [List.getElem?_cons_succ, ih hothers, List.getElem?_drop, hplace]
        simp only [Nat.add_lt_add_iff_right]
    · cases h

end Bitmap

/-! ### The bits of a byte -/

theorem toNat_columnMask (column : Nat) : (columnMask column).toNat = 2 ^ (7 - column % 8) := by
  have hall : ∀ i < 8, ((0x80 : UInt8) >>> UInt8.ofNat i).toNat = 2 ^ (7 - i) := by decide
  exact hall _ (Nat.mod_lt column (by decide))

/-- The mask of a column picks the bit that a reader takes for the column. -/
theorem and_columnMask_bne_zero (byte : UInt8) (column : Nat) :
    (byte &&& columnMask column != 0) = byte.toNat.testBit (7 - column % 8) := by
  have hmasked : (byte &&& columnMask column).toNat =
      (byte.toNat.testBit (7 - column % 8)).toNat * 2 ^ (7 - column % 8) := by
    rw [UInt8.toNat_and, toNat_columnMask, Nat.and_two_pow]
  rw [Bool.eq_iff_iff, bne_iff_ne, ne_eq, ← UInt8.toNat_inj, hmasked]
  cases byte.toNat.testBit (7 - column % 8) <;> simp

/-- A byte is what its eight bits are. -/
theorem eq_of_and_columnMask {byte byte' : UInt8}
    (h : ∀ column < 8, (byte &&& columnMask column != 0) = (byte' &&& columnMask column != 0)) :
    byte = byte' := by
  rw [← UInt8.toNat_inj]
  apply Nat.eq_of_testBit_eq
  intro i
  by_cases hi : i < 8
  · have hcolumn := h (7 - i) (by omega)
    have hbit : 7 - (7 - i) % 8 = i := by omega
    rwa [and_columnMask_bne_zero, and_columnMask_bne_zero, hbit] at hcolumn
  · -- Above the eighth bit there is none.
    have hpow : 2 ^ 8 ≤ 2 ^ i := Nat.pow_le_pow_right (by decide) (Nat.not_lt.mp hi)
    rw [Nat.testBit_lt_two_pow (Nat.lt_of_lt_of_le byte.toNat_lt hpow),
      Nat.testBit_lt_two_pow (Nat.lt_of_lt_of_le byte'.toNat_lt hpow)]

namespace Canvas

/-! ### Drawn canvases -/

/-- A canvas is drawn if it is blank at first and points are plotted from then on. -/
inductive Drawn : Canvas → Prop where
  | blank {size : CanvasSize} {buffer : Bytes} {c : Canvas} (h : blank size buffer = .ok c) :
      Drawn c
  | plot {c : Canvas} (h : Drawn c) (x y : Int) : Drawn (c.plot x y).2

variable {c c' : Canvas}

theorem Drawn.paddingClear (h : c.Drawn) : c.PaddingClear := by
  induction h with
  | blank h => exact paddingClear_of_blank h
  | plot _ x y ih => exact ih.plot x y

/-- In the rows of a drawn canvas every bit is a pixel, or padding and not set. -/
theorem PaddingClear.bit_eq_get (h : c.PaddingClear) {x y : Nat} (hx : x < 8 * c.size.stride)
    (hy : y < c.size.height.toNat) : c.bit (y * c.size.stride + x / 8) x = c.get x y := by
  by_cases hwidth : x < c.size.width.toNat
  · exact (get_of_contains (CanvasSize.contains_natCast_iff.mpr ⟨hwidth, hy⟩)).symm
  · have hoff : ¬ c.size.Contains x y := fun hc =>
      hwidth (CanvasSize.contains_natCast_iff.mp hc).1
    rw [h y hy x hx (Nat.not_lt.mp hwidth), get_of_not_contains hoff]

/-! ### Bitmaps of canvases -/

/-- The rows of a canvas are read as its pixels. -/
theorem PaddingClear.bit_of_readRows? (h : c.PaddingClear) {rows : List (List UInt8)}
    (hrows : Bitmap.readRows? c.size.stride c.size.height.toNat c.bytes.toList = some rows)
    (width height x y : Nat) : (⟨width, height, rows⟩ : Bitmap).bit x y = c.get x y := by
  rw [Bitmap.bit, Bitmap.getElem?_of_readRows? hrows]
  by_cases hplace : y < c.size.height.toNat ∧ x / 8 < c.size.stride
  · obtain ⟨hy, hbyte⟩ := hplace
    have hx : x < 8 * c.size.stride := by omega
    rw [if_pos ⟨hy, hbyte⟩, getElem?_toList_bytes (CanvasSize.byte_lt_byteCount hy hx),
      Option.getD_some, ← and_columnMask_bne_zero]
    exact h.bit_eq_get hx hy
  · -- There are no bytes here, and no pixels either.
    have hoff : ¬ c.size.Contains x y := by
      have hwidth := c.size.width_le_stride
      rw [CanvasSize.contains_natCast_iff]
      omega
    rw [if_neg hplace, get_of_not_contains hoff]
    exact Nat.zero_testBit _

/-- Digits take one byte each. -/
theorem toList_toUTF8_toString (n : Nat) :
    (toString n).toUTF8.data.toList = Bitmap.digitBytes n := by
  have hdigit : ∀ d < 10,
      String.utf8EncodeChar d.digitChar = [UInt8.ofNat d.digitChar.toNat] := by
    decide
  have hchars : (Nat.toDigits 10 n).flatMap String.utf8EncodeChar = Bitmap.digitBytes n := by
    rw [Bitmap.digitBytes, List.map_eq_flatMap]
    apply List.flatMap_congr
    intro c hc
    obtain ⟨d, hd, rfl⟩ := Text.Literal.exists_digitChar_of_mem_toDigits (by decide) hc
    exact hdigit d hd
  show n.repr.toByteArray.data.toList = _
  rw [Nat.repr_eq_ofList_toDigits, String.toByteArray_ofList, List.utf8Encode,
    List.data_toByteArray, hchars]

/-- A bitmap is the header and the bytes of the rows. -/
theorem toList_portableBitmap (c : Canvas) : c.portableBitmap.toList =
    Bitmap.header c.size.width.toNat c.size.height.toNat ++ c.bytes.toList := by
  have hmagic : ("P4\n" : String).toByteArray.data.toList = [80, 52, 10] := by decide
  have hspace : (" " : String).toByteArray.data.toList = [32] := by decide
  have hnewline : ("\n" : String).toByteArray.data.toList = [10] := by decide
  have hnumber (n : Nat) : (toString n).toByteArray.data.toList = Bitmap.digitBytes n :=
    toList_toUTF8_toString n
  have hheader : (bitmapHeader c.size).toUTF8.data.toList =
      Bitmap.header c.size.width.toNat c.size.height.toNat := by
    simp only [bitmapHeader, String.toUTF8, String.toByteArray_append,
      ByteArray.toList_data_append, hmagic, hspace, hnewline, hnumber, Bitmap.header,
      List.cons_append, List.append_assoc, List.nil_append]
  rw [portableBitmap, Array.toList_append, hheader]

/-- A drawn canvas is read back from its bitmap. -/
theorem PaddingClear.read?_portableBitmap (h : c.PaddingClear) :
    ∃ b, Bitmap.read? c.portableBitmap.toList = some b ∧ b.width = c.size.width.toNat ∧
      b.height = c.size.height.toNat ∧ ∀ x y : Nat, b.bit x y = c.get x y := by
  have hlength : c.bytes.toList.length = c.size.stride * c.size.height.toNat :=
    length_toList_bytes c
  obtain ⟨rows, hrows⟩ := Bitmap.exists_readRows? hlength
  refine ⟨⟨c.size.width.toNat, c.size.height.toNat, rows⟩, ?_, rfl, rfl, ?_⟩
  · rw [toList_portableBitmap, Bitmap.read?_header_append]
    exact congrArg _ hrows
  · intro x y
    exact h.bit_of_readRows? hrows _ _ x y

/-- The place of a bit in the rows is a column of a row. -/
theorem PaddingClear.bit_eq_get_of_lt (h : c.PaddingClear) {index column : Nat}
    (hindex : index < c.size.byteCount) (hcolumn : column < 8) :
    c.bit index column =
      c.get ((8 * (index % c.size.stride) + column : Nat) : Int) (index / c.size.stride : Nat) := by
  have hstride : 0 < c.size.stride := by
    apply Nat.pos_of_ne_zero
    intro hzero
    rw [CanvasSize.byteCount, hzero, Nat.zero_mul] at hindex
    omega
  have hmod : index % c.size.stride < c.size.stride := Nat.mod_lt index hstride
  have hrow : index / c.size.stride < c.size.height.toNat := Nat.div_lt_of_lt_mul hindex
  have hbyte : (8 * (index % c.size.stride) + column) / 8 = index % c.size.stride := by omega
  have hplace : index / c.size.stride * c.size.stride + index % c.size.stride = index := by
    rw [Nat.mul_comm]
    exact Nat.div_add_mod index c.size.stride
  rw [← h.bit_eq_get (by omega) hrow, hbyte, hplace, bit, bit, columnMask_mul_add]

/-- Canvases of the same size with the same pixels have the same rows. -/
theorem PaddingClear.bytes_eq (h : c.PaddingClear) (h' : c'.PaddingClear)
    (hsize : c'.size = c.size) (hget : ∀ x y : Int, c'.get x y = c.get x y) :
    c'.bytes = c.bytes := by
  rw [← Array.toList_inj]
  apply List.ext_getElem?
  intro i
  by_cases hi : i < c.size.byteCount
  · have hi' : i < c'.size.byteCount := by rwa [hsize]
    rw [getElem?_toList_bytes hi, getElem?_toList_bytes hi', Option.some.injEq]
    apply eq_of_and_columnMask
    intro column hcolumn
    show c'.bit i column = c.bit i column
    rw [h.bit_eq_get_of_lt hi hcolumn, h'.bit_eq_get_of_lt hi' hcolumn, hsize, hget]
  · rw [List.getElem?_eq_none (by rw [length_toList_bytes, hsize]; omega),
      List.getElem?_eq_none (by rw [length_toList_bytes]; omega)]

/-- Pixels are told by the points with natural coordinates. -/
theorem get_eq_of_natCast (h : ∀ x y : Nat, c'.get x y = c.get x y) (x y : Int) :
    c'.get x y = c.get x y := by
  by_cases hneg : x < 0 ∨ y < 0
  · have hoff (s : CanvasSize) : ¬ s.Contains x y := by
      unfold CanvasSize.Contains
      omega
    rw [get_of_not_contains (hoff _), get_of_not_contains (hoff _)]
  · have hpoint := h x.toNat y.toNat
    rwa [Int.toNat_of_nonneg (by omega), Int.toNat_of_nonneg (by omega)] at hpoint

/-- **Bitmaps are read back.** The bitmap of a drawn canvas is read as a picture with the sides of
the canvas. A bit of the picture is set exactly if the pixel of its column and row is, so no bit to
the right of the canvas is. Two drawn canvases have the same bitmap exactly if they have the same
size and the same pixels. -/
theorem portableBitmap_reads_back (h : c.Drawn) :
    (∃ b, Bitmap.read? c.portableBitmap.toList = some b ∧
      b.width = c.size.width.toNat ∧ b.height = c.size.height.toNat ∧
      (∀ x y : Nat, b.bit x y = c.get x y) ∧
      ∀ x y : Nat, b.width ≤ x → b.bit x y = false) ∧
    ∀ c' : Canvas, c'.Drawn →
      (c'.portableBitmap = c.portableBitmap ↔
        c'.size = c.size ∧ ∀ x y : Int, c'.get x y = c.get x y) := by
  have hclear := h.paddingClear
  obtain ⟨b, hread, hwidth, hheight, hbit⟩ := hclear.read?_portableBitmap
  refine ⟨⟨b, hread, hwidth, hheight, hbit, ?_⟩, ?_⟩
  · intro x y hx
    have hoff : ¬ c.size.Contains x y := by
      rw [CanvasSize.contains_natCast_iff]
      omega
    rw [hbit, get_of_not_contains hoff]
  · intro c' h'
    constructor
    · intro hsame
      -- Both pictures are read from the same bytes.
      obtain ⟨b', hread', hwidth', hheight', hbit'⟩ := h'.paddingClear.read?_portableBitmap
      rw [hsame, hread] at hread'
      obtain rfl := Option.some.inj hread'
      have hsize : c'.size = c.size := by
        rw [CanvasSize.mk.injEq, ← UInt16.toNat_inj, ← UInt16.toNat_inj]
        exact ⟨hwidth'.symm.trans hwidth, hheight'.symm.trans hheight⟩
      exact ⟨hsize, get_eq_of_natCast fun x y => (hbit' x y).symm.trans (hbit x y)⟩
    · intro ⟨hsize, hget⟩
      rw [portableBitmap, portableBitmap, hclear.bytes_eq h'.paddingClear hsize hget, hsize]

/-- One row of three pixels of which the last is set, so its byte is a space. -/
def spaceRow : Canvas := ((⟨⟨3, 1⟩, #[0, 7], by decide⟩ : Canvas).plot 2 0).2

/-- The space behind the header is read as the row. -/
theorem portableBitmap_reads_back_spaceRow :
    spaceRow.portableBitmap.toList = [80, 52, 10, 51, 32, 49, 10, 32] ∧
    ∃ b, Bitmap.read? spaceRow.portableBitmap.toList = some b ∧ b.width = 3 ∧ b.height = 1 ∧
      b.bit 1 0 = false ∧ b.bit 2 0 = true ∧ b.bit 3 0 = false := by
  have hblank : blank ⟨3, 1⟩ #[255, 7] = .ok ⟨⟨3, 1⟩, #[0, 7], by decide⟩ := rfl
  have hdrawn : spaceRow.Drawn := (Drawn.blank hblank).plot 2 0
  obtain ⟨⟨b, hread, hwidth, hheight, hbit, hpadding⟩, -⟩ := portableBitmap_reads_back hdrawn
  refine ⟨by decide +kernel, b, hread, hwidth, hheight, ?_, ?_, ?_⟩
  · rw [hbit]
    decide
  · rw [hbit]
    decide
  · exact hpadding 3 0 (by rw [hwidth]; decide)

end Canvas

end TurtleVM
