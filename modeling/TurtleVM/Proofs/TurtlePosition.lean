import TurtleVM.Proofs.DrawingPath

/-! # Where the turtle stands

A move adds a vector of whole numbers that depends on the heading only, so the turtle stands where
the sum of these vectors leads from the middle of the canvas. Its coordinates wrap around at 64
bits, but no vector is longer than a pixel: with fewer than 2^52 moves the sum is the exact one
(`StandsAt`, `standsAt_after`), and the pixel is the middle one moved by the whole pixels of the
sum. `turtle_position_is_exact` says so of every machine that steps and runs lead to.
-/

namespace TurtleVM

/-! ### Fixed-point coordinates -/

namespace FixedPoint

/-- Coordinates are shifted by 10 bits. -/
theorem toNat_smod_fractionBits : (fractionBits.toBitVec.smod 64).toNat = 10 := by decide

theorem toInt_toPixel (coordinate : Int64) :
    (toPixel coordinate).toInt = coordinate.toInt / 1024 := by
  rw [toPixel, ← Int64.toInt_toBitVec, Int64.toBitVec_shiftRight, BitVec.toInt_sshiftRight',
    toNat_smod_fractionBits, Int.shiftRight_eq_div_pow]
  rfl

/-- The middle of a canvas is far from losing bits. -/
theorem toInt_ofPixel {pixel : Nat} (h : pixel < 32768) :
    (ofPixel (Int64.ofNat pixel)).toInt = pixel * 1024 := by
  have hpixel : (Int64.ofNat pixel).toBitVec.toNat = pixel := by
    rw [Int64.toBitVec_ofNat', BitVec.toNat_ofNat]
    omega
  rw [ofPixel, ← Int64.toInt_toBitVec, Int64.toBitVec_shiftLeft, BitVec.shiftLeft_eq',
    toNat_smod_fractionBits, BitVec.toInt_shiftLeft, hpixel, Nat.shiftLeft_eq,
    Int.bmod_eq_of_le (by omega) (by omega)]
  omega

/-- The number is a signed 64-bit word. A sum that fits does not wrap around. -/
def Fits (n : Int) : Prop := -2 ^ 63 ≤ n ∧ n < 2 ^ 63

/-- A sum that stays within 64 bits is exact. -/
theorem toInt_add_ofInt {coordinate : Int64} {d : Int} (hd : -1024 ≤ d ∧ d ≤ 1024)
    (hfits : Fits (coordinate.toInt + d)) :
    (coordinate + Int64.ofInt d).toInt = coordinate.toInt + d := by
  obtain ⟨hlow, hhigh⟩ := hfits
  have hofInt : (Int64.ofInt d).toInt = d := Int64.toInt_ofInt_of_le (by omega) (by omega)
  rw [Int64.toInt_add, hofInt, Int.bmod_eq_of_le (by omega) (by omega)]

end FixedPoint

/-! ### Displacements -/

namespace Heading

/-- No vector of the table is longer than a pixel in either direction. -/
theorem bounds_of_mem_unitVectors : ∀ v ∈ unitVectors.toList,
    (-1024 ≤ v.1 ∧ v.1 ≤ 1024) ∧ (-1024 ≤ v.2 ∧ v.2 ≤ 1024) := by
  decide +kernel

/-- No move is longer than a pixel in either direction. -/
theorem unitVector_bounds (heading : Int32) :
    (-1024 ≤ (unitVector heading).1 ∧ (unitVector heading).1 ≤ 1024) ∧
      (-1024 ≤ (unitVector heading).2 ∧ (unitVector heading).2 ≤ 1024) := by
  have hentry := getElem?_unitVectors (normalize_lt heading)
  exact bounds_of_mem_unitVectors _ (List.mem_of_getElem? hentry)

/-- The sum of the vectors of some moves. -/
def displacement (headings : List Int32) : Int × Int :=
  ((headings.map fun heading => (unitVector heading).1).sum,
    (headings.map fun heading => (unitVector heading).2).sum)

theorem displacement_append_singleton (headings : List Int32) (heading : Int32) :
    displacement (headings ++ [heading]) =
      ((displacement headings).1 + (unitVector heading).1,
        (displacement headings).2 + (unitVector heading).2) := by
  simp [displacement]

theorem displacement_bounds (headings : List Int32) :
    (-1024 * headings.length ≤ (displacement headings).1 ∧
        (displacement headings).1 ≤ 1024 * headings.length) ∧
      (-1024 * headings.length ≤ (displacement headings).2 ∧
        (displacement headings).2 ≤ 1024 * headings.length) := by
  induction headings with
  | nil => simp [displacement]
  | cons heading headings ih =>
    have hbounds := unitVector_bounds heading
    simp only [displacement, List.map_cons, List.sum_cons, List.length_cons] at ih ⊢
    omega

end Heading

/-! ### One move -/

/-- The pixel in the middle of a canvas. -/
def CanvasSize.middle (size : CanvasSize) : Int × Int :=
  ((size.width.toNat / 2 : Nat), (size.height.toNat / 2 : Nat))

theorem CanvasSize.middle_bounds (size : CanvasSize) :
    (0 ≤ size.middle.1 ∧ size.middle.1 < 32768) ∧ (0 ≤ size.middle.2 ∧ size.middle.2 < 32768) := by
  have hwidth := size.width.toNat_lt
  have hheight := size.height.toNat_lt
  unfold middle
  omega

namespace Turtle

/-- The pixel is the coordinate divided by 1024, rounded down. -/
theorem pixel_eq_fdiv (t : Turtle) :
    t.pixel = (t.x.toInt.fdiv 1024, t.y.toInt.fdiv 1024) := by
  rw [pixel, FixedPoint.toInt_toPixel, FixedPoint.toInt_toPixel,
    Int.fdiv_eq_ediv_of_nonneg _ (by decide), Int.fdiv_eq_ediv_of_nonneg _ (by decide)]

/-- The turtle stands at a displacement from the middle of a canvas. -/
structure StandsAt (t : Turtle) (size : CanvasSize) (d : Int × Int) : Prop where
  x : t.x.toInt = size.middle.1 * 1024 + d.1
  y : t.y.toInt = size.middle.2 * 1024 + d.2

namespace StandsAt

variable {t : Turtle} {size : CanvasSize}

theorem centred (size : CanvasSize) : (Turtle.centred size).StandsAt size (0, 0) := by
  have hwidth := size.width.toNat_lt
  have hheight := size.height.toNat_lt
  constructor
  · rw [Turtle.centred, FixedPoint.toInt_ofPixel (by omega), Int.add_zero]
    rfl
  · rw [Turtle.centred, FixedPoint.toInt_ofPixel (by omega), Int.add_zero]
    rfl

/-- The turtle's pixel is the middle one, moved by the whole pixels of the displacement. -/
theorem pixel_eq {d : Int × Int} (h : t.StandsAt size d) :
    t.pixel = (size.middle.1 + d.1 / 1024, size.middle.2 + d.2 / 1024) := by
  rw [Turtle.pixel, FixedPoint.toInt_toPixel, FixedPoint.toInt_toPixel, h.x, h.y]
  ext <;> simp only <;> omega

/-- Each move leads at most 1024 positions away, and the middle is at most 32767 pixels away. -/
theorem bounds {headings : List Int32} (h : t.StandsAt size (Heading.displacement headings)) :
    t.x.toInt.natAbs ≤ 1024 * (32767 + headings.length) ∧
      t.y.toInt.natAbs ≤ 1024 * (32767 + headings.length) := by
  obtain ⟨hmx, hmy⟩ := size.middle_bounds
  obtain ⟨hdx, hdy⟩ := Heading.displacement_bounds headings
  rw [h.x, h.y]
  omega

/-- No move wraps around, as long as there have not been too many of them. -/
theorem fits_add {headings : List Int32} (h : t.StandsAt size (Heading.displacement headings))
    (hshort : headings.length < 2 ^ 52) (heading : Int32) :
    FixedPoint.Fits (t.x.toInt + (Heading.unitVector heading).1) ∧
      FixedPoint.Fits (t.y.toInt + (Heading.unitVector heading).2) := by
  obtain ⟨hx, hy⟩ := h.bounds
  obtain ⟨hvx, hvy⟩ := Heading.unitVector_bounds heading
  -- The coordinates are less than 2^62 + 2^25.
  unfold FixedPoint.Fits
  omega

/-- A move adds its vector. -/
theorem advance {headings : List Int32} (h : t.StandsAt size (Heading.displacement headings))
    (hshort : headings.length < 2 ^ 52) (heading : Int32) :
    (t.advance heading).StandsAt size (Heading.displacement (headings ++ [heading])) := by
  obtain ⟨hfitsX, hfitsY⟩ := h.fits_add hshort heading
  obtain ⟨hvx, hvy⟩ := Heading.unitVector_bounds heading
  obtain ⟨hx, hy⟩ := h
  rw [Heading.displacement_append_singleton]
  constructor
  · show (t.x + Int64.ofInt (Heading.unitVector heading).1).toInt = _
    rw [FixedPoint.toInt_add_ofInt hvx hfitsX, hx]
    exact Int.add_assoc _ _ _
  · show (t.y + Int64.ofInt (Heading.unitVector heading).2).toInt = _
    rw [FixedPoint.toInt_add_ofInt hvy hfitsY, hy]
    exact Int.add_assoc _ _ _

end StandsAt

end Turtle

/-! ### Any number of moves -/

namespace Machine

variable {m : Machine} {k : Nat}

/-- The headings of the moves among the first `k` steps. -/
def headings (k : Nat) (m : Machine) : List Int32 :=
  (List.range k).filterMap fun j =>
    if (m.after j).fetch? = some .move then some ((m.after j).scene.registers.get .a) else none

theorem headings_succ_of_move (h : (m.after k).fetch? = some .move) :
    m.headings (k + 1) = m.headings k ++ [(m.after k).scene.registers.get .a] := by
  simp [headings, List.range_succ, h]

theorem headings_succ_of_ne (h : (m.after k).fetch? ≠ some .move) :
    m.headings (k + 1) = m.headings k := by
  simp [headings, List.range_succ, h]

/-- Steps only add moves. -/
theorem length_headings_mono {j : Nat} (h : j ≤ k) :
    (m.headings j).length ≤ (m.headings k).length :=
  ((List.range_sublist.mpr h).filterMap _).length_le

/-- After fewer than 2^52 moves the turtle stands where the sum of their vectors leads from the
middle of the canvas. -/
theorem IsFresh.standsAt_after {image : Image} {buffer : Bytes} (h : IsFresh image buffer m)
    (hshort : (m.headings k).length < 2 ^ 52) :
    (m.after k).scene.turtle.StandsAt image.size (Heading.displacement (m.headings k)) := by
  induction k with
  | zero =>
    show m.scene.turtle.StandsAt image.size (0, 0)
    rw [h.turtle]
    exact .centred image.size
  | succ k ih =>
    show (m.after k).step.2.scene.turtle.StandsAt _ _
    by_cases hmove : (m.after k).fetch? = some .move
    · rw [headings_succ_of_move hmove] at hshort ⊢
      rw [List.length_append, List.length_singleton] at hshort
      rw [turtle_step_of_move hmove]
      have hbefore := Nat.lt_of_succ_lt hshort
      exact (ih hbefore).advance hbefore _
    · rw [headings_succ_of_ne hmove] at hshort ⊢
      have hbefore := ih hshort
      by_cases hdraw : (m.after k).fetch? = some .draw
      · -- Lowering the pen does not move the turtle.
        rw [turtle_step_of_draw hdraw]
        exact ⟨hbefore.x, hbefore.y⟩
      · rwa [turtle_step_of_ne hmove hdraw]

/-- **The turtle's position is exact.** Wherever steps and runs lead a machine that was loaded, it
has taken some number of steps. With fewer than 2^52 moves among them, each coordinate is that of
the middle pixel plus the sum of what the table holds for the degrees of the headings, in whole
numbers. No addition has wrapped around, neither coordinate has ever been further from 0 than 1024
times 32767 and the number of moves so far, and the pixel is the coordinate divided by 1024, rounded
down. -/
theorem turtle_position_is_exact {image : Image} {buffer : Bytes} {m₀ : Machine}
    (hload : Machine.load image buffer = .ok m₀) (hm : m₀.Reaches m) :
    (∃ k, m₀.IsAfter k m) ∧
    ∀ k, m₀.IsAfter k m → (m₀.headings k).length < 2 ^ 52 →
      m.scene.turtle.x.toInt = (image.size.width.toNat / 2 : Nat) * 1024 +
        ((m₀.headings k).map fun a => (Heading.vector (a.toInt % 360).toNat).1).sum ∧
      m.scene.turtle.y.toInt = (image.size.height.toNat / 2 : Nat) * 1024 +
        ((m₀.headings k).map fun a => (Heading.vector (a.toInt % 360).toNat).2).sum ∧
      (∀ j < k, (m₀.after j).fetch? = some .move →
        FixedPoint.Fits ((m₀.after j).scene.turtle.x.toInt +
          (Heading.unitVector ((m₀.after j).scene.registers.get .a)).1) ∧
        FixedPoint.Fits ((m₀.after j).scene.turtle.y.toInt +
          (Heading.unitVector ((m₀.after j).scene.registers.get .a)).2)) ∧
      (∀ j ≤ k,
        (m₀.after j).scene.turtle.x.toInt.natAbs ≤ 1024 * (32767 + (m₀.headings j).length) ∧
        (m₀.after j).scene.turtle.y.toInt.natAbs ≤ 1024 * (32767 + (m₀.headings j).length)) ∧
      m.scene.turtle.pixel =
        (m.scene.turtle.x.toInt.fdiv 1024, m.scene.turtle.y.toInt.fdiv 1024) := by
  have hfresh := isFresh_of_load hload
  refine ⟨hm.exists_isAfter, ?_⟩
  intro k hk hshort
  have hstands : ∀ j ≤ k, (m₀.after j).scene.turtle.StandsAt image.size
      (Heading.displacement (m₀.headings j)) := by
    intro j hj
    exact hfresh.standsAt_after (Nat.lt_of_le_of_lt (length_headings_mono hj) hshort)
  have hend := hstands k (Nat.le_refl k)
  rw [← hk.scene] at hend
  refine ⟨hend.x, hend.y, ?_, ?_, m.scene.turtle.pixel_eq_fdiv⟩
  · intro j hlt _
    have hj : j ≤ k := Nat.le_of_lt hlt
    exact (hstands j hj).fits_add (Nat.lt_of_le_of_lt (length_headings_mono hj) hshort) _
  · intro j hj
    exact (hstands j hj).bounds

/-- `DEC A`, `MOV` on 10 by 1 pixels. -/
def leaveAtTheTop : Machine :=
  ⟨#[6, 0, 2], 0, .running, 0, ⟨.zero, .centred ⟨10, 1⟩, ⟨⟨10, 1⟩, #[0, 0], by decide⟩⟩⟩

/-- The heading of -1 degree leads to the right and a little up, into the row above the canvas. -/
theorem turtle_position_is_exact_of_leaveAtTheTop :
    Machine.load ⟨some ⟨10, 1⟩, #[6, 0, 2]⟩ #[0, 0] = .ok leaveAtTheTop ∧
      leaveAtTheTop.Reaches (leaveAtTheTop.runWith record [] 9).2.1 ∧
      leaveAtTheTop.IsAfter 3 (leaveAtTheTop.runWith record [] 9).2.1 ∧
      (leaveAtTheTop.headings 3).length < 2 ^ 52 ∧
      (leaveAtTheTop.runWith record [] 9).2.1.scene.turtle.x.toInt = 6144 ∧
      (leaveAtTheTop.runWith record [] 9).2.1.scene.turtle.y.toInt = -18 ∧
      (leaveAtTheTop.runWith record [] 9).2.1.scene.turtle.pixel = (6, -1) := by
  have hload : Machine.load ⟨some ⟨10, 1⟩, #[6, 0, 2]⟩ #[0, 0] = .ok leaveAtTheTop := rfl
  have hreaches : leaveAtTheTop.Reaches (leaveAtTheTop.runWith record [] 9).2.1 :=
    Reaches.refl.run record [] 9
  have hafter : leaveAtTheTop.IsAfter 3 (leaveAtTheTop.runWith record [] 9).2.1 := .inl rfl
  have hheadings : leaveAtTheTop.headings 3 = [-1] := rfl
  have hshort : (leaveAtTheTop.headings 3).length < 2 ^ 52 := by
    rw [hheadings]
    decide
  obtain ⟨hx, hy, -, -, hpixel⟩ := (turtle_position_is_exact hload hreaches).2 3 hafter hshort
  have hvector : Heading.vector ((-1 : Int32).toInt % 360).toNat = (1024, -18) := by decide +kernel
  simp only [hheadings, List.map_cons, List.map_nil, hvector] at hx hy
  refine ⟨hload, hreaches, hafter, hshort, hx.trans (by decide), hy.trans (by decide), ?_⟩
  rw [hpixel, hx, hy]
  decide

end Machine

end TurtleVM
