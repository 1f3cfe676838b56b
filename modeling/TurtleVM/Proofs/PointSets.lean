import TurtleVM.Proofs.BitmapReading

/-! # A canvas as a finite set of points

What a canvas shows is the set of the points plotted on it that lie on it. The pixels, the list of
the pixels set and their number all tell this set (`Shows`), and the bytes are the rows from the top
down (`RowByRow`). Nothing else about the plots is kept, neither their order nor how often a point
came up: `plotAll_eq_of_same_points`.
-/

namespace TurtleVM.Canvas

variable {size : CanvasSize} {buffer : Bytes} {c c' : Canvas} {ps ps' : List (Int × Int)}

/-! ### Buffers that are lent -/

/-- Prepares the buffer that somebody lends for a canvas: there has to be room before the front is
cleared. -/
def prepare (size : CanvasSize) : EStateM LoadError Bytes Unit := do
  let buffer ← EStateM.get
  if buffer.size < size.byteCount then
    throw (.bufferTooSmall size.byteCount buffer.size)
  EStateM.set (clear size.byteCount buffer)

theorem blank_eq_error_iff {e : LoadError} : blank size buffer = .error e ↔
    buffer.size < size.byteCount ∧ e = .bufferTooSmall size.byteCount buffer.size := by
  unfold blank
  split
  · rename_i hfits
    simp [Nat.not_lt.mpr hfits]
  · rename_i hshort
    simp [Nat.not_le.mp hshort, eq_comm]

theorem run_prepare (size : CanvasSize) (buffer : Bytes) : (prepare size).run buffer =
    if buffer.size < size.byteCount then
      .error (.bufferTooSmall size.byteCount buffer.size) buffer
    else .ok () (clear size.byteCount buffer) := by
  show EStateM.run (if buffer.size < size.byteCount then _ else _) buffer = _
  split <;> rfl

/-- A buffer that is too short is given back as it was. -/
theorem prepare_of_blank_error {e : LoadError} (h : blank size buffer = .error e) :
    (prepare size).run buffer = .error e buffer := by
  obtain ⟨hshort, rfl⟩ := blank_eq_error_iff.mp h
  rw [run_prepare, if_pos hshort]

theorem prepare_of_blank (h : blank size buffer = .ok c) :
    (prepare size).run buffer = .ok () c.buffer := by
  rw [run_prepare, if_neg (Nat.not_lt.mpr (byteCount_le_of_blank h)), buffer_of_blank h]

/-! ### Plotting points -/

/-- The canvas after some points have been plotted, one after the other. -/
def plotAll (ps : List (Int × Int)) (c : Canvas) : Canvas :=
  ps.foldl (fun c p => (c.plot p.1 p.2).2) c

/-- What plotting a point keeps is kept by plotting points. -/
theorem plotAll_preserves {P : Canvas → Prop} (hplot : ∀ c x y, P c → P (c.plot x y).2)
    (ps : List (Int × Int)) (h : P c) : P (c.plotAll ps) := by
  induction ps generalizing c with
  | nil => exact h
  | cons p ps ih => exact ih (hplot c p.1 p.2 h)

@[simp] theorem size_plotAll (ps : List (Int × Int)) (c : Canvas) :
    (c.plotAll ps).size = c.size :=
  plotAll_preserves (P := fun c' => c'.size = c.size) (fun _ _ _ => (plot_size _ _ _).trans) ps rfl

theorem plotAll_append_singleton (ps : List (Int × Int)) (p : Int × Int) (c : Canvas) :
    c.plotAll (ps ++ [p]) = ((c.plotAll ps).plot p.1 p.2).2 := by
  simp [plotAll]

/-- Plotting points sets the pixels of those on the canvas, and no others. -/
theorem get_plotAll (ps : List (Int × Int)) (c : Canvas) (x y : Int) :
    (c.plotAll ps).get x y = true ↔
      c.get x y = true ∨ c.size.Contains x y ∧ (x, y) ∈ ps := by
  induction ps generalizing c with
  | nil => simp [plotAll]
  | cons p ps ih =>
    obtain ⟨px, py⟩ := p
    show ((c.plot px py).2.plotAll ps).get x y = true ↔ _
    rw [ih, get_plot, plot_size, or_assoc, List.mem_cons, Prod.mk.injEq]
    refine or_congr_right ?_
    constructor
    · rintro (⟨hc, rfl, rfl⟩ | ⟨hc, hmem⟩)
      · exact ⟨hc, .inl ⟨rfl, rfl⟩⟩
      · exact ⟨hc, .inr hmem⟩
    · rintro ⟨hc, ⟨rfl, rfl⟩ | hmem⟩
      · exact .inl ⟨hc, rfl, rfl⟩
      · exact .inr ⟨hc, hmem⟩

/-! ### Canvases with the same pixels -/

theorem eq_of_fields (hsize : c'.size = c.size) (hbuffer : c'.buffer = c.buffer) : c' = c := by
  obtain ⟨size, buffer, fits⟩ := c
  obtain ⟨size', buffer', fits'⟩ := c'
  cases hsize
  cases hbuffer
  rfl

/-- Without set padding a canvas is told by its pixels and by what stands behind its rows. -/
theorem PaddingClear.eq (h : c.PaddingClear) (h' : c'.PaddingClear) (hsize : c'.size = c.size)
    (hget : ∀ x y : Int, c'.get x y = c.get x y)
    (hrest : ∀ i, c.size.byteCount ≤ i → c'.buffer[i]? = c.buffer[i]?) : c' = c := by
  refine eq_of_fields hsize ?_
  apply Array.ext_getElem?
  intro i
  by_cases hi : i < c.size.byteCount
  · have hbytes := congrArg (·[i]?) (h.bytes_eq h' hsize hget)
    have hfits := c.fits
    have hfits' := c'.fits
    rw [hsize] at hfits'
    simp only [bytes, Array.getElem?_extract, hsize, Nat.zero_add] at hbytes
    rwa [if_pos (by omega), if_pos (by omega)] at hbytes
  · exact hrest i (Nat.not_lt.mp hi)

theorem getElem?_buffer_plotAll (ps : List (Int × Int)) (c : Canvas) {i : Nat}
    (hi : c.size.byteCount ≤ i) : (c.plotAll ps).buffer[i]? = c.buffer[i]? := by
  refine (plotAll_preserves (P := fun c' => c'.size = c.size ∧ c'.buffer[i]? = c.buffer[i]?)
    ?_ ps ⟨rfl, rfl⟩).2
  intro c' x y ⟨hsize, hbuffer⟩
  exact ⟨(plot_size c' x y).trans hsize,
    (getElem?_buffer_plot c' x y (hsize ▸ hi)).trans hbuffer⟩

/-- It does not matter in which order, and how often, the points on the canvas are plotted. -/
theorem plotAll_eq_of_same_points (hclear : c.PaddingClear)
    (h : ∀ p : Int × Int, c.size.Contains p.1 p.2 → (p ∈ ps' ↔ p ∈ ps)) :
    c.plotAll ps' = c.plotAll ps := by
  have hpadding (ps : List (Int × Int)) : (c.plotAll ps).PaddingClear :=
    plotAll_preserves (fun _ x y hc => hc.plot x y) ps hclear
  apply (hpadding ps).eq (hpadding ps')
  · rw [size_plotAll, size_plotAll]
  · intro x y
    rw [Bool.eq_iff_iff, get_plotAll, get_plotAll]
    exact or_congr_right (and_congr_right fun hc => h (x, y) hc)
  · intro i hi
    rw [size_plotAll] at hi
    rw [getElem?_buffer_plotAll ps c hi, getElem?_buffer_plotAll ps' c hi]

/-! ### The points in raster order -/

/-- The point is in a higher row, or further to the left in the same row. -/
def Precedes (p q : Nat × Nat) : Prop := p.2 < q.2 ∨ p.2 = q.2 ∧ p.1 < q.1

theorem pairwise_points (c : Canvas) : c.points.Pairwise Precedes := by
  unfold points
  refine List.pairwise_flatMap.mpr ⟨?_, ?_⟩
  · intro row _
    refine List.pairwise_map.mpr ((List.pairwise_lt_range.filter _).imp ?_)
    intro x x' hlt
    exact .inr ⟨rfl, hlt⟩
  · -- Points of different rows are ordered as the rows are.
    refine List.pairwise_lt_range.imp ?_
    intro row row' hlt p hp q hq
    obtain ⟨x, -, rfl⟩ := List.mem_map.mp hp
    obtain ⟨x', -, rfl⟩ := List.mem_map.mp hq
    exact .inl hlt

theorem exists_mem_points_iff (c : Canvas) (p : Int × Int) :
    (∃ q ∈ c.points, p = ((q.1 : Int), (q.2 : Int))) ↔ c.get p.1 p.2 = true := by
  constructor
  · rintro ⟨⟨x, y⟩, hq, rfl⟩
    exact mem_points_iff.mp hq
  · intro hget
    obtain ⟨hx, -, hy, -⟩ := contains_of_get hget
    refine ⟨(p.1.toNat, p.2.toNat), mem_points_iff.mpr ?_, ?_⟩
    · rwa [Int.toNat_of_nonneg hx, Int.toNat_of_nonneg hy]
    · rw [Int.toNat_of_nonneg hx, Int.toNat_of_nonneg hy]

/-- What can be seen of a canvas that shows a set of points. -/
structure Shows (c : Canvas) (shown : Set (Int × Int)) : Prop where
  get_iff (x y : Int) : c.get x y = true ↔ (x, y) ∈ shown
  listed_iff (p : Int × Int) : p ∈ shown ↔ ∃ q ∈ c.points, p = ((q.1 : Int), (q.2 : Int))
  /-- In raster order every point comes once. -/
  ordered : c.points.Pairwise Precedes
  count_eq_length : c.count = c.points.length
  count_eq_ncard : c.count = shown.ncard

theorem PaddingClear.shows (h : c.PaddingClear) :
    c.Shows {p | c.get p.1 p.2 = true} where
  get_iff _ _ := Iff.rfl
  listed_iff p := (exists_mem_points_iff c p).symm
  ordered := pairwise_points c
  count_eq_length := count_eq_length_points h
  count_eq_ncard := Canvas.count_eq_ncard h

/-! ### Rows -/

/-- The bytes of a canvas are its rows from the top down. -/
structure RowByRow (c : Canvas) : Prop where
  row?_eq_none_iff (y : Nat) : c.row? y = none ↔ c.size.height.toNat ≤ y
  size_row (y : Nat) (row : Bytes) : c.row? y = some row → row.size = c.size.stride
  bytes_eq : c.bytes.toList =
    (List.range c.size.height.toNat).flatMap fun y => (c.row? y).elim [] Array.toList

theorem stride_pos (hwidth : size.width ≠ 0) : 0 < size.stride := by
  have hpos : 0 < size.width.toNat := by
    apply Nat.pos_of_ne_zero
    exact fun hzero => hwidth (UInt16.toNat_inj.mp hzero)
  unfold CanvasSize.stride
  omega

/-- Every row ends within the bytes of the canvas. -/
theorem row_stop_le {y : Nat} (hy : y < size.height.toNat) :
    (y + 1) * size.stride ≤ size.byteCount := by
  calc (y + 1) * size.stride
      ≤ size.height.toNat * size.stride := Nat.mul_le_mul_right _ hy
    _ = size.byteCount := Nat.mul_comm _ _

theorem row?_of_lt {y : Nat} (hy : y < c.size.height.toNat) : c.row? y =
    some (c.buffer.extract (y * c.size.stride) ((y + 1) * c.size.stride)) :=
  if_pos (row_stop_le hy)

theorem row?_of_le {y : Nat} (hstride : 0 < c.size.stride) (hy : c.size.height.toNat ≤ y) :
    c.row? y = none := by
  refine if_neg (Nat.not_le.mpr ?_)
  calc c.size.byteCount
      = c.size.height.toNat * c.size.stride := Nat.mul_comm _ _
    _ < (y + 1) * c.size.stride := Nat.mul_lt_mul_of_pos_right (Nat.lt_succ_of_le hy) hstride

/-- The first bytes of a list are its first pieces of one length. -/
theorem take_mul_eq_flatMap (bytes : List UInt8) (length n : Nat) :
    bytes.take (n * length) =
      (List.range n).flatMap fun y => (bytes.drop (y * length)).take length := by
  induction n with
  | zero => simp
  | succ n ih =>
    rw [Nat.add_mul, Nat.one_mul, List.take_add, ih, List.range_succ, List.flatMap_append,
      List.flatMap_singleton]

theorem rowByRow (hwidth : c.size.width ≠ 0) : c.RowByRow := by
  have hstride := stride_pos hwidth
  have hlt {y : Nat} (h : c.row? y ≠ none) : y < c.size.height.toNat :=
    Nat.not_le.mp fun hle => h (row?_of_le hstride hle)
  constructor
  case row?_eq_none_iff =>
    intro y
    refine ⟨?_, row?_of_le hstride⟩
    intro hnone
    by_contra hle
    rw [row?_of_lt (Nat.not_le.mp hle)] at hnone
    cases hnone
  case size_row =>
    intro y row hrow
    have hy := hlt (by rw [hrow]; exact Option.some_ne_none row)
    have hstop : (y + 1) * c.size.stride ≤ c.buffer.size := (row_stop_le hy).trans c.fits
    rw [row?_of_lt hy] at hrow
    obtain rfl := Option.some.inj hrow
    rw [Array.size_extract, Nat.min_eq_left hstop, Nat.add_mul, Nat.one_mul,
      Nat.add_sub_cancel_left]
  case bytes_eq =>
    have hrow : ∀ y ∈ List.range c.size.height.toNat, (c.row? y).elim [] Array.toList =
        (c.buffer.toList.drop (y * c.size.stride)).take c.size.stride := by
      intro y hy
      rw [row?_of_lt (List.mem_range.mp hy), Option.elim_some, Array.toList_extract,
        List.extract_eq_take_drop, Nat.add_mul, Nat.one_mul, Nat.add_sub_cancel_left]
    rw [List.flatMap_congr hrow, ← take_mul_eq_flatMap, bytes, Array.toList_extract,
      List.extract_eq_take_drop, Nat.sub_zero, List.drop_zero, CanvasSize.byteCount, Nat.mul_comm]

/-! ### Canvases as sets -/

/-- **A canvas is a finite set of points.** Take a size with some width and a buffer. A canvas is
refused exactly if the buffer is too short, and then the buffer is as it was; otherwise its front is
prepared. After any plots on the new canvas, wherever their points lie, a further one tells exactly
whether its point is on the canvas. What is shown is the set of the points on the canvas that were
plotted, and the bytes are the rows. To plot a point a second time changes nothing, the order of the
plots does not matter, and in all the canvas depends on this set only. -/
theorem canvas_is_point_set {size : CanvasSize} (hwidth : size.width ≠ 0) (buffer : Bytes) :
    (∀ e, blank size buffer = .error e ↔
      buffer.size < size.byteCount ∧ e = .bufferTooSmall size.byteCount buffer.size) ∧
    (∀ e, blank size buffer = .error e → (prepare size).run buffer = .error e buffer) ∧
    ∀ c, blank size buffer = .ok c → (prepare size).run buffer = .ok () c.buffer ∧
      ∀ ps : List (Int × Int),
        (∀ x y, ((c.plotAll ps).plot x y).1 = true ↔ size.Contains x y) ∧
        (c.plotAll ps).Shows {p | size.Contains p.1 p.2 ∧ p ∈ ps} ∧
        (c.plotAll ps).RowByRow ∧
        (∀ p ∈ ps, ((c.plotAll ps).plot p.1 p.2).2 = c.plotAll ps) ∧
        (∀ ps', ps'.Perm ps → c.plotAll ps' = c.plotAll ps) ∧
        ∀ ps', (∀ p, size.Contains p.1 p.2 → (p ∈ ps' ↔ p ∈ ps)) →
          c.plotAll ps' = c.plotAll ps := by
  refine ⟨fun e => blank_eq_error_iff, fun e => prepare_of_blank_error, ?_⟩
  intro c hblank
  refine ⟨prepare_of_blank hblank, ?_⟩
  intro ps
  have hsize : c.size = size := size_of_blank hblank
  have hclear : c.PaddingClear := paddingClear_of_blank hblank
  have hsame {ps' : List (Int × Int)}
      (h : ∀ p, size.Contains p.1 p.2 → (p ∈ ps' ↔ p ∈ ps)) : c.plotAll ps' = c.plotAll ps :=
    plotAll_eq_of_same_points hclear (hsize ▸ h)
  refine ⟨?_, ?_, ?_, ?_, ?_, fun ps' => hsame⟩
  · intro x y
    rw [plot_fst, size_plotAll, hsize, decide_eq_true_iff]
  · have hshown : {p : Int × Int | (c.plotAll ps).get p.1 p.2 = true} =
        {p | size.Contains p.1 p.2 ∧ p ∈ ps} := by
      ext ⟨x, y⟩
      show (c.plotAll ps).get x y = true ↔ _
      rw [get_plotAll, get_of_blank hblank, hsize]
      simp
    rw [← hshown]
    exact (plotAll_preserves (fun _ x y hc => hc.plot x y) ps hclear).shows
  · apply rowByRow
    rwa [size_plotAll, hsize]
  · intro p hp
    rw [← plotAll_append_singleton]
    refine hsame fun q _ => ?_
    rw [List.mem_append, List.mem_singleton, or_iff_left_iff_imp]
    rintro rfl
    exact hp
  · exact fun ps' hperm => hsame fun p _ => hperm.mem_iff

/-- Two rows of ten pixels in a buffer with a byte to spare. -/
def twoRows : Canvas := ⟨⟨10, 2⟩, #[0, 0, 0, 0, 255], by decide⟩

/-- Of six plots three are off the canvas and one is repeated. -/
theorem canvas_is_point_set_of_twoRows :
    (CanvasSize.mk 10 2).width ≠ 0 ∧ blank ⟨10, 2⟩ #[1, 2, 3, 4, 255] = .ok twoRows ∧
      twoRows.plotAll [(9, 1), (10, 0), (0, 0), (-1, 1), (9, 1), (0, 2)] =
        twoRows.plotAll [(0, 0), (9, 1)] ∧
      (twoRows.plotAll [(0, 0), (9, 1)]).points = [(0, 0), (9, 1)] ∧
      (twoRows.plotAll [(0, 0), (9, 1)]).count = 2 ∧
      (twoRows.plotAll [(0, 0), (9, 1)]).row? 2 = none := by
  have hwidth : (CanvasSize.mk 10 2).width ≠ 0 := by decide
  have hblank : blank ⟨10, 2⟩ #[1, 2, 3, 4, 255] = .ok twoRows := rfl
  obtain ⟨-, -, hall⟩ := canvas_is_point_set hwidth #[1, 2, 3, 4, 255]
  obtain ⟨-, hplots⟩ := hall twoRows hblank
  obtain ⟨-, hshows, hrows, -, -, hsame⟩ := hplots [(0, 0), (9, 1)]
  have hpoints : (twoRows.plotAll [(0, 0), (9, 1)]).points = [(0, 0), (9, 1)] := by decide
  refine ⟨hwidth, hblank, hsame _ ?_, hpoints, ?_, (hrows.row?_eq_none_iff 2).mpr (by decide)⟩
  · rintro ⟨x, y⟩ ⟨hx, hxw, -, hyh⟩
    have hwide : x < 10 := hxw
    have hhigh : y < 2 := hyh
    simp only [List.mem_cons, List.not_mem_nil, Prod.mk.injEq, or_false]
    omega
  · rw [hshows.count_eq_length, hpoints]
    rfl

end TurtleVM.Canvas
