import Mathlib.Data.Set.Card
import TurtleVM.Canvas

/-! # A canvas is a set of points

Pixels are kept in the bits of rows that are padded to whole bytes. No two columns of a canvas share
a bit (`place_injective`), so plotting a point sets the pixel of this point and no other:
`get_plot`. The padding is never set, and that is what makes the number of set bits the number of
set pixels: `count_eq_length_points`.
-/

namespace TurtleVM

/-! ### Masks -/

/-- Two masks meet exactly if they are masks of the same bit. -/
theorem columnMask_and_eq_zero_iff (a b : Nat) :
    columnMask a &&& columnMask b = 0 ↔ a % 8 ≠ b % 8 := by
  have hall : ∀ i < 8, ∀ j < 8,
      ((0x80 : UInt8) >>> UInt8.ofNat i) &&& ((0x80 : UInt8) >>> UInt8.ofNat j) = 0 ↔ i ≠ j := by
    decide
  exact hall _ (Nat.mod_lt a (by decide)) _ (Nat.mod_lt b (by decide))

theorem columnMask_mul_add (a b : Nat) : columnMask (8 * a + b) = columnMask b := by
  rw [columnMask, columnMask, Nat.mul_add_mod]

theorem bitCount_eq_countP (byte : UInt8) :
    bitCount byte = (List.range 8).countP fun column => byte &&& columnMask column != 0 := by
  unfold bitCount
  split
  · rename_i hzero
    subst hzero
    decide
  · rfl

/-! ### The places of columns -/

namespace CanvasSize

variable {s : CanvasSize}

theorem width_le_stride (s : CanvasSize) : s.width.toNat ≤ 8 * s.stride := by
  unfold stride
  omega

/-- Each column of each row has a bit of its own, the columns of the padding included. -/
theorem place_injective {row row' column column' : Nat} (hcolumn : column < 8 * s.stride)
    (hcolumn' : column' < 8 * s.stride)
    (hbyte : row * s.stride + column / 8 = row' * s.stride + column' / 8)
    (hbit : column % 8 = column' % 8) : row = row' ∧ column = column' := by
  have hlt : column / 8 < s.stride := by omega
  have hlt' : column' / 8 < s.stride := by omega
  -- The byte within its row is the remainder of its index.
  have hmod : column / 8 = column' / 8 := by
    rw [← Nat.mul_add_mod_of_lt (a := row) hlt, hbyte, Nat.mul_add_mod_of_lt hlt']
  have hrow : row * s.stride = row' * s.stride := by omega
  exact ⟨Nat.eq_of_mul_eq_mul_right (by omega) hrow, by omega⟩

theorem byte_lt_byteCount {row column : Nat} (hrow : row < s.height.toNat)
    (hcolumn : column < 8 * s.stride) : row * s.stride + column / 8 < s.byteCount := by
  have hlt : column / 8 < s.stride := by omega
  calc row * s.stride + column / 8
      < (row + 1) * s.stride := by rw [Nat.add_mul, Nat.one_mul]; omega
    _ ≤ s.height.toNat * s.stride := Nat.mul_le_mul_right _ hrow
    _ = s.byteCount := Nat.mul_comm _ _

theorem contains_natCast_iff {x y : Nat} :
    s.Contains x y ↔ x < s.width.toNat ∧ y < s.height.toNat := by
  unfold Contains
  omega

end CanvasSize

namespace Canvas

/-! ### Bits -/

/-- Whether the bit for a column is set in the byte at an index. -/
def bit (c : Canvas) (index column : Nat) : Bool :=
  c.buffer.getD index 0 &&& columnMask column != 0

theorem get_of_contains {c : Canvas} {x y : Int} (h : c.size.Contains x y) :
    c.get x y = c.bit (y.toNat * c.size.stride + x.toNat / 8) x.toNat := by
  unfold get
  rw [CanvasSize.place?, if_pos h]
  rfl

theorem get_of_not_contains {c : Canvas} {x y : Int} (h : ¬ c.size.Contains x y) :
    c.get x y = false := by
  unfold get
  rw [CanvasSize.place?, if_neg h]

theorem contains_of_get {c : Canvas} {x y : Int} (h : c.get x y = true) :
    c.size.Contains x y := by
  by_contra hoff
  rw [get_of_not_contains hoff] at h
  cases h

/-! ### Plotting -/

theorem plot_of_not_contains {c : Canvas} {x y : Int} (h : ¬ c.size.Contains x y) :
    (c.plot x y).2 = c := by
  unfold plot
  simp only [CanvasSize.place?, if_neg h]

theorem buffer_plot_of_contains {c : Canvas} {x y : Int} (h : c.size.Contains x y) :
    (c.plot x y).2.buffer =
      c.buffer.modify (y.toNat * c.size.stride + x.toNat / 8) (· ||| columnMask x.toNat) := by
  unfold plot
  simp only [CanvasSize.place?, if_pos h]

/-- Plotting sets one bit. -/
theorem bit_plot (c : Canvas) {x y : Int} (h : c.size.Contains x y) (index column : Nat) :
    (c.plot x y).2.bit index column = true ↔ c.bit index column = true ∨
      index = y.toNat * c.size.stride + x.toNat / 8 ∧ column % 8 = x.toNat % 8 := by
  have hplace : y.toNat * c.size.stride + x.toNat / 8 < c.buffer.size :=
    Nat.lt_of_lt_of_le (CanvasSize.lt_byteCount_of_place? (if_pos h)) c.fits
  simp only [bit, buffer_plot_of_contains h, Array.getD_eq_getD_getElem?, Array.getElem?_modify,
    bne_iff_ne]
  by_cases hindex : y.toNat * c.size.stride + x.toNat / 8 = index
  · subst hindex
    rw [if_pos rfl, Array.getElem?_eq_getElem hplace]
    simp only [Option.map_some, Option.getD_some, ne_eq, or_and_eq_zero_iff,
      columnMask_and_eq_zero_iff, true_and]
    rw [Classical.not_and_iff_not_or_not, Classical.not_not, eq_comm (a := x.toNat % 8)]
  · rw [if_neg hindex]
    simp only [Ne.symm hindex, false_and, or_false]

/-- After plotting a point its pixel is set if it is on the canvas, and all other pixels are as
they were. -/
theorem get_plot (c : Canvas) (x y x' y' : Int) :
    (c.plot x y).2.get x' y' = true ↔
      c.get x' y' = true ∨ c.size.Contains x y ∧ x' = x ∧ y' = y := by
  by_cases h : c.size.Contains x y
  · by_cases h' : c.size.Contains x' y'
    · rw [get_of_contains h', get_of_contains (by rwa [plot_size]), plot_size, bit_plot c h]
      refine or_congr_right ?_
      rw [and_iff_right h]
      constructor
      · intro ⟨hbyte, hbit⟩
        have hwidth := c.size.width_le_stride
        obtain ⟨hx, hxw, hy, hyh⟩ := h
        obtain ⟨hx', hxw', hy', hyh'⟩ := h'
        have hplace := CanvasSize.place_injective (by omega) (by omega) hbyte hbit
        omega
      · intro ⟨hx, hy⟩
        subst hx hy
        exact ⟨rfl, rfl⟩
    · rw [get_of_not_contains h', get_of_not_contains (by rwa [plot_size])]
      simp only [Bool.false_eq_true, false_or, false_iff]
      intro ⟨hc, hx, hy⟩
      subst hx hy
      exact h' hc
  · rw [plot_of_not_contains h]
    simp only [h, false_and, or_false]

/-- Plotting never touches the buffer behind the rows. -/
theorem getElem?_buffer_plot (c : Canvas) (x y : Int) {i : Nat} (h : c.size.byteCount ≤ i) :
    (c.plot x y).2.buffer[i]? = c.buffer[i]? := by
  by_cases hc : c.size.Contains x y
  · have hplace : y.toNat * c.size.stride + x.toNat / 8 < c.size.byteCount :=
      CanvasSize.lt_byteCount_of_place? (if_pos hc)
    rw [buffer_plot_of_contains hc, Array.getElem?_modify, if_neg (by omega)]
  · rw [plot_of_not_contains hc]

/-! ### Padding -/

/-- No bit of the padding is set. -/
def PaddingClear (c : Canvas) : Prop :=
  ∀ row < c.size.height.toNat, ∀ column < 8 * c.size.stride, c.size.width.toNat ≤ column →
    c.bit (row * c.size.stride + column / 8) column = false

/-- The bit of a point on the canvas is no padding. -/
theorem PaddingClear.plot {c : Canvas} (hclear : c.PaddingClear) (x y : Int) :
    (c.plot x y).2.PaddingClear := by
  by_cases h : c.size.Contains x y
  · intro row hrow column hcolumn hwidth
    rw [plot_size] at hrow hcolumn hwidth ⊢
    rw [Bool.eq_false_iff]
    intro hbit
    rcases (bit_plot c h _ _).mp hbit with hold | ⟨hbyte, hmod⟩
    · rw [hclear row hrow column hcolumn hwidth] at hold
      cases hold
    · have hstride := c.size.width_le_stride
      obtain ⟨hx, hxw, hy, hyh⟩ := h
      have hplace := CanvasSize.place_injective hcolumn (by omega) hbyte hmod
      omega
  · rw [plot_of_not_contains h]
    exact hclear

/-! ### Blank canvases -/

theorem getElem?_clear (count : Nat) (buffer : Bytes) (i : Nat) :
    (clear count buffer)[i]? = if i < count ∧ i < buffer.size then some 0 else buffer[i]? := by
  induction count with
  | zero => simp [clear]
  | succ count ih =>
    have hclear : clear (count + 1) buffer = (clear count buffer).setIfInBounds count 0 := by
      simp [clear]
    rw [hclear, Array.getElem?_setIfInBounds, size_clear, ih]
    grind

/-- A canvas that fits its buffer is the cleared front of it. -/
theorem blank_of_le {size : CanvasSize} {buffer : Bytes} (h : size.byteCount ≤ buffer.size) :
    blank size buffer = .ok ⟨size, clear size.byteCount buffer, by rwa [size_clear]⟩ :=
  dif_pos h

section Blank

variable {size : CanvasSize} {buffer : Bytes} {c : Canvas} (h : blank size buffer = .ok c)

include h

theorem blank_fields : c.size = size ∧ c.buffer = clear size.byteCount buffer := by
  unfold blank at h
  split at h
  · cases h
    exact ⟨rfl, rfl⟩
  · cases h

theorem size_of_blank : c.size = size := (blank_fields h).1

theorem buffer_of_blank : c.buffer = clear size.byteCount buffer := (blank_fields h).2

theorem byteCount_le_of_blank : size.byteCount ≤ buffer.size := by
  have hfits := c.fits
  rwa [size_of_blank h, buffer_of_blank h, size_clear] at hfits

/-- The rows of a blank canvas are zero. -/
theorem bytes_of_blank : c.bytes = Array.replicate size.byteCount 0 := by
  have hfits := byteCount_le_of_blank h
  apply Array.ext_getElem?
  intro i
  rw [bytes, size_of_blank h, buffer_of_blank h, Array.getElem?_extract, size_clear,
    getElem?_clear, Array.getElem?_replicate]
  grind

theorem bit_of_blank {index : Nat} (hindex : index < size.byteCount) (column : Nat) :
    c.bit index column = false := by
  have hfits := byteCount_le_of_blank h
  rw [bit, buffer_of_blank h, Array.getD_eq_getD_getElem?, getElem?_clear,
    if_pos ⟨hindex, by omega⟩]
  simp

theorem get_of_blank (x y : Int) : c.get x y = false := by
  by_cases hc : c.size.Contains x y
  · rw [get_of_contains hc]
    apply bit_of_blank h
    rw [← size_of_blank h]
    exact CanvasSize.lt_byteCount_of_place? (if_pos hc)
  · exact get_of_not_contains hc

theorem paddingClear_of_blank : c.PaddingClear := by
  intro row hrow column hcolumn _
  apply bit_of_blank h
  rw [← size_of_blank h]
  exact CanvasSize.byte_lt_byteCount hrow hcolumn

end Blank

/-! ### The bytes of the rows -/

theorem length_toList_bytes (c : Canvas) : c.bytes.toList.length = c.size.byteCount := by
  have hfits := c.fits
  rw [Array.length_toList, bytes, Array.size_extract]
  omega

theorem getElem?_toList_bytes {c : Canvas} {i : Nat} (h : i < c.size.byteCount) :
    c.bytes.toList[i]? = some (c.buffer.getD i 0) := by
  have hbuffer : i < c.buffer.size := Nat.lt_of_lt_of_le h c.fits
  rw [Array.getElem?_toList, bytes, Array.getElem?_extract, Nat.zero_add, if_pos (by omega),
    Array.getD_eq_getD_getElem?, Array.getElem?_eq_getElem hbuffer, Option.getD_some]

/-! ### Counting -/

theorem sum_map_range_mul (f : Nat → Nat) (width rows : Nat) :
    ((List.range (width * rows)).map f).sum =
      ((List.range rows).map fun row =>
        ((List.range width).map fun i => f (row * width + i)).sum).sum := by
  induction rows with
  | zero => rfl
  | succ rows ih =>
    rw [Nat.mul_succ, List.range_add, List.map_append, List.sum_append, ih, List.range_succ,
      List.map_append, List.sum_append, List.map_map, Nat.mul_comm width rows]
    simp [Function.comp_def]

/-- The bits of some bytes in a row, counted column by column. -/
theorem sum_countP_bit (c : Canvas) (base count : Nat) :
    ((List.range count).map fun i => (List.range 8).countP (c.bit (base + i))).sum =
      (List.range (8 * count)).countP fun column => c.bit (base + column / 8) column := by
  induction count with
  | zero => rfl
  | succ count ih =>
    have hlast : (List.range 8).countP (c.bit (base + count)) =
        (List.range 8).countP
          ((fun column => c.bit (base + column / 8) column) ∘ (8 * count + ·)) := by
      apply List.countP_congr
      intro column hcolumn
      have hlt : column < 8 := List.mem_range.mp hcolumn
      have hdiv : (8 * count + column) / 8 = count := by omega
      simp only [Function.comp_apply, hdiv, bit, columnMask_mul_add]
    rw [List.range_succ (n := count), List.map_append, List.sum_append, ih, Nat.mul_succ,
      List.range_add, List.countP_append, List.countP_map, ← hlast]
    simp

theorem count_eq_sum (c : Canvas) : c.count =
    ((List.range c.size.byteCount).map fun i => (List.range 8).countP (c.bit i)).sum := by
  have hbytes : c.bytes.toList = (List.range c.size.byteCount).map fun i => c.buffer.getD i 0 := by
    apply List.ext_getElem?
    intro i
    rw [List.getElem?_map]
    by_cases hi : i < c.size.byteCount
    · rw [getElem?_toList_bytes hi, List.getElem?_range hi, Option.map_some]
    · have hle : c.size.byteCount ≤ i := Nat.not_lt.mp hi
      rw [List.getElem?_eq_none (by rwa [length_toList_bytes]),
        List.getElem?_eq_none (by rwa [List.length_range]), Option.map_none]
  have hfoldl (l : List UInt8) (n : Nat) :
      l.foldl (fun n byte => n + bitCount byte) n = n + (l.map bitCount).sum := by
    induction l generalizing n with
    | nil => rfl
    | cons byte l ih => rw [List.foldl_cons, ih, List.map_cons, List.sum_cons, Nat.add_assoc]
  rw [count, ← Array.foldl_toList, hfoldl, Nat.zero_add, hbytes, List.map_map]
  simp only [Function.comp_def, bitCount_eq_countP]
  rfl

/-- The set bits of a row without padding are its set pixels. -/
theorem countP_row {c : Canvas} (hclear : c.PaddingClear) {row : Nat}
    (hrow : row < c.size.height.toNat) :
    (List.range (8 * c.size.stride)).countP
        (fun column => c.bit (row * c.size.stride + column / 8) column) =
      (List.range c.size.width.toNat).countP fun (x : Nat) => c.get x row := by
  have hwidth := c.size.width_le_stride
  obtain ⟨padding, hpadding⟩ := Nat.exists_eq_add_of_le hwidth
  rw [hpadding, List.range_add, List.countP_append, List.countP_map]
  have hzero : (List.range padding).countP
      ((fun column => c.bit (row * c.size.stride + column / 8) column) ∘
        (c.size.width.toNat + ·)) = 0 := by
    rw [List.countP_eq_zero]
    intro i hi
    have hlt : i < padding := List.mem_range.mp hi
    rw [Function.comp_apply, hclear row hrow _ (by omega) (by omega)]
    exact Bool.false_ne_true
  rw [hzero, Nat.add_zero]
  apply List.countP_congr
  intro x hx
  have hc : c.size.Contains x row :=
    CanvasSize.contains_natCast_iff.mpr ⟨List.mem_range.mp hx, hrow⟩
  rw [get_of_contains hc]
  rfl

/-- Without set padding, the set bits are the set pixels. -/
theorem count_eq_length_points {c : Canvas} (hclear : c.PaddingClear) :
    c.count = c.points.length := by
  rw [count_eq_sum, CanvasSize.byteCount, sum_map_range_mul, points, List.length_flatMap]
  congr 1
  apply List.map_congr_left
  intro row hrow
  rw [sum_countP_bit, countP_row hclear (List.mem_range.mp hrow), List.length_map,
    List.countP_eq_length_filter]

/-! ### The points as a set -/

theorem mem_points_iff {c : Canvas} {x y : Nat} : (x, y) ∈ c.points ↔ c.get x y = true := by
  simp only [points, List.mem_flatMap, List.mem_map, List.mem_filter, List.mem_range,
    Prod.mk.injEq]
  constructor
  · intro ⟨_, _, _, ⟨_, hget⟩, hx, hy⟩
    subst hx hy
    exact hget
  · intro hget
    obtain ⟨hx, hy⟩ := CanvasSize.contains_natCast_iff.mp (contains_of_get hget)
    exact ⟨y, hy, x, ⟨hx, hget⟩, rfl, rfl⟩

theorem nodup_points (c : Canvas) : c.points.Nodup := by
  unfold points
  refine List.nodup_flatMap.mpr ⟨?_, ?_⟩
  · intro row _
    refine List.Nodup.map ?_ (List.nodup_range.filter _)
    intro x x' hx
    exact congrArg Prod.fst hx
  · -- Points of different rows differ.
    refine List.nodup_range.imp ?_
    intro row row' hne
    rw [Function.onFun, List.disjoint_left]
    intro p hp hp'
    obtain ⟨x, -, hx⟩ := List.mem_map.mp hp
    obtain ⟨x', -, hx'⟩ := List.mem_map.mp hp'
    exact hne (congrArg Prod.snd (hx.trans hx'.symm))

/-- The number of set bits is the number of points whose pixels are set. -/
theorem count_eq_ncard {c : Canvas} (hclear : c.PaddingClear) :
    c.count = Set.ncard {p : Int × Int | c.get p.1 p.2 = true} := by
  have hset : {p : Int × Int | c.get p.1 p.2 = true} =
      (fun p : Nat × Nat => ((p.1, p.2) : Int × Int)) '' {p | p ∈ c.points} := by
    ext ⟨x, y⟩
    simp only [Set.mem_ofPred_eq, Set.mem_image, Prod.exists, mem_points_iff, Prod.mk.injEq]
    constructor
    · intro hget
      obtain ⟨hx, -, hy, -⟩ := contains_of_get hget
      refine ⟨x.toNat, y.toNat, ?_, Int.toNat_of_nonneg hx, Int.toNat_of_nonneg hy⟩
      rwa [Int.toNat_of_nonneg hx, Int.toNat_of_nonneg hy]
    · intro ⟨_, _, hget, hx, hy⟩
      rwa [← hx, ← hy]
  have hinjective : Function.Injective fun p : Nat × Nat => ((p.1, p.2) : Int × Int) := by
    intro p p' hp
    simpa [Prod.ext_iff] using hp
  have hfinset : {p | p ∈ c.points} = (c.points.toFinset : Set (Nat × Nat)) := by
    ext p
    simp
  rw [hset, Set.ncard_image_of_injective _ hinjective, hfinset, Set.ncard_coe_finset,
    List.toFinset_card_of_nodup c.nodup_points, count_eq_length_points hclear]

end Canvas

end TurtleVM
