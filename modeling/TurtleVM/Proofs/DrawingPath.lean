import TurtleVM.Proofs.Histories
import TurtleVM.Proofs.PlottedPoints

/-! # The canvas is the clipped path

The canvas of a machine is told by its history: a pixel is set exactly if it is on the canvas and
some move has led to it after the pen was lowered (`Draws`). The turtle itself may be anywhere, off
the canvas as well; such moves plot nothing.

Each step plots one point at most, so all else about the bits of the canvas follows from what
plotting a point does.
-/

namespace TurtleVM.Machine

variable {m m₀ m' : Machine} {k : Nat} {x y : Int}

/-! ### The path -/

/-- Within the first `k` steps a move leads the turtle to the pixel, and `DRW` has gone before it.
-/
def Draws (m₀ : Machine) (k : Nat) (x y : Int) : Prop :=
  ∃ i j, i < j ∧ j < k ∧ (m₀.after i).fetch? = some .draw ∧ (m₀.after j).fetch? = some .move ∧
    (m₀.after (j + 1)).scene.turtle.pixel = (x, y)

/-- The pen is down exactly after `DRW`. -/
theorem drawing_after_iff (hup : m₀.scene.turtle.drawing = false) (k : Nat) :
    (m₀.after k).scene.turtle.drawing = true ↔ ∃ i < k, (m₀.after i).fetch? = some .draw := by
  induction k with
  | zero => simp [after, hup]
  | succ k ih =>
    show (m₀.after k).step.2.scene.turtle.drawing = true ↔ _
    rw [Nat.exists_lt_succ_right, ← ih]
    by_cases hdraw : (m₀.after k).fetch? = some .draw
    · rw [turtle_step_of_draw hdraw]
      simp only [hdraw, or_true]
    · simp only [hdraw, or_false]
      by_cases hmove : (m₀.after k).fetch? = some .move
      · rw [turtle_step_of_move hmove, Turtle.advance_drawing]
      · rw [turtle_step_of_ne hmove hdraw]

/-- One more step adds the pixel that it inks. -/
theorem draws_succ_iff (hup : m₀.scene.turtle.drawing = false) :
    m₀.Draws (k + 1) x y ↔
      m₀.Draws k x y ∨ (m₀.after k).Inks ∧ (m₀.after (k + 1)).scene.turtle.pixel = (x, y) := by
  rw [Inks, drawing_after_iff hup]
  constructor
  · intro ⟨i, j, hij, hj, hdraw, hmove, hpixel⟩
    rcases Nat.lt_or_eq_of_le (Nat.le_of_lt_succ hj) with hlt | heq
    · exact .inl ⟨i, j, hij, hlt, hdraw, hmove, hpixel⟩
    · subst heq
      exact .inr ⟨⟨hmove, i, hij, hdraw⟩, hpixel⟩
  · intro h
    rcases h with ⟨i, j, hij, hj, hrest⟩ | ⟨⟨hmove, i, hi, hdraw⟩, hpixel⟩
    · exact ⟨i, j, hij, Nat.lt_succ_of_lt hj, hrest⟩
    · exact ⟨i, k, hi, Nat.lt_succ_self k, hdraw, hmove, hpixel⟩

/-! ### One step -/

@[simp] theorem canvasSize_step (m : Machine) :
    m.step.2.scene.canvas.size = m.scene.canvas.size := by
  by_cases hinks : m.Inks
  · rw [canvas_step_of_inks hinks, Canvas.plot_size]
  · rw [canvas_step_of_not_inks hinks]

/-- A step sets the pixel that it inks, if that is on the canvas, and no other. -/
theorem get_step_iff (m : Machine) (x y : Int) :
    m.step.2.scene.canvas.get x y = true ↔ m.scene.canvas.get x y = true ∨
      m.scene.canvas.size.Contains x y ∧ m.Inks ∧ m.step.2.scene.turtle.pixel = (x, y) := by
  by_cases hinks : m.Inks
  · rw [canvas_step_of_inks hinks, Canvas.get_plot]
    refine or_congr_right ?_
    constructor
    · intro ⟨hc, hx, hy⟩
      rw [hx, hy]
      exact ⟨hc, hinks, rfl⟩
    · intro ⟨hc, _, hpixel⟩
      rw [hpixel]
      exact ⟨hc, rfl, rfl⟩
  · rw [canvas_step_of_not_inks hinks]
    simp only [hinks, false_and, and_false, or_false]

/-- What plotting keeps of a canvas is kept by every machine that is reached. -/
theorem Reaches.preserves_canvas {P : Canvas → Prop} (hplot : ∀ c x y, P c → P (c.plot x y).2)
    (h₀ : P m₀.scene.canvas) (h : m₀.Reaches m) : P m.scene.canvas := by
  refine h.preserves (P := fun m => P m.scene.canvas) ?_ (fun _ hm => hm) h₀
  intro σ watch m state hm
  rw [(stepWith_eq_step watch state m).2]
  by_cases hinks : m.Inks
  · rw [canvas_step_of_inks hinks]
    exact hplot _ _ _ hm
  · rw [canvas_step_of_not_inks hinks]
    exact hm

/-! ### Any number of steps -/

@[simp] theorem canvasSize_after (k : Nat) (m : Machine) :
    (m.after k).scene.canvas.size = m.scene.canvas.size := by
  induction k with
  | zero => rfl
  | succ k ih => exact (canvasSize_step _).trans ih

/-- From a blank canvas and with the pen up, the pixels set are those of the path that are on the
canvas. -/
theorem get_after_iff (hblank : ∀ x y, m₀.scene.canvas.get x y = false)
    (hup : m₀.scene.turtle.drawing = false) (k : Nat) (x y : Int) :
    (m₀.after k).scene.canvas.get x y = true ↔
      m₀.scene.canvas.size.Contains x y ∧ m₀.Draws k x y := by
  induction k with
  | zero =>
    show m₀.scene.canvas.get x y = true ↔ _
    rw [hblank]
    simp [Draws]
  | succ k ih =>
    show (m₀.after k).step.2.scene.canvas.get x y = true ↔ _
    rw [get_step_iff, ih, draws_succ_iff hup, canvasSize_after, and_or_left]
    rfl

/-- Without `DRW` the canvas stays as it is. -/
theorem canvas_after_of_not_draw (hup : m₀.scene.turtle.drawing = false)
    (h : ∀ j < k, (m₀.after j).fetch? ≠ some .draw) :
    (m₀.after k).scene.canvas = m₀.scene.canvas := by
  induction k with
  | zero => rfl
  | succ k ih =>
    have hbefore : ∀ j < k, (m₀.after j).fetch? ≠ some .draw :=
      fun j hj => h j (Nat.lt_succ_of_lt hj)
    have hdry : ¬ (m₀.after k).Inks := by
      intro ⟨_, hdown⟩
      obtain ⟨i, hi, hdraw⟩ := (drawing_after_iff hup k).mp hdown
      exact hbefore i hi hdraw
    exact (canvas_step_of_not_inks hdry).trans (ih hbefore)

/-! ### Loaded machines -/

/-- The machine is about to run an image on the cleared front of a buffer. -/
structure IsFresh (image : Image) (buffer : Bytes) (m : Machine) : Prop where
  code : m.code = image.code
  pc : m.pc = 0
  status : m.status = .running
  steps : m.steps = 0
  registers : m.scene.registers = .zero
  turtle : m.scene.turtle = .centred image.size
  canvas : Canvas.blank image.size buffer = .ok m.scene.canvas

theorem isFresh_of_load {image : Image} {buffer : Bytes}
    (h : Machine.load image buffer = .ok m) : IsFresh image buffer m := by
  obtain ⟨canvas, hblank, rfl⟩ := load_eq_ok_iff.mp h
  exact ⟨rfl, rfl, rfl, rfl, rfl, rfl, hblank⟩

/-- An image can be loaded whenever its canvas fits the buffer. -/
theorem exists_isFresh (image : Image) {buffer : Bytes}
    (hfits : image.size.byteCount ≤ buffer.size) :
    ∃ m, Machine.load image buffer = .ok m ∧ IsFresh image buffer m := by
  have hload := load_eq_ok_iff.mpr ⟨_, Canvas.blank_of_le hfits, rfl⟩
  exact ⟨_, hload, isFresh_of_load hload⟩

namespace IsFresh

variable {image : Image} {buffer : Bytes}

theorem canvasSize (h : IsFresh image buffer m) : m.scene.canvas.size = image.size :=
  Canvas.size_of_blank h.canvas

theorem pen_up (h : IsFresh image buffer m) : m.scene.turtle.drawing = false := by
  rw [h.turtle, Turtle.centred_drawing]

/-- The pixels set after some steps are those of the path that are on the canvas. -/
theorem get_after_iff (h : IsFresh image buffer m) (k : Nat) (x y : Int) :
    (m.after k).scene.canvas.get x y = true ↔ image.size.Contains x y ∧ m.Draws k x y := by
  rw [Machine.get_after_iff (Canvas.get_of_blank h.canvas) h.pen_up, h.canvasSize]

end IsFresh

/-- **The canvas is the clipped path.** An image can be loaded whenever its canvas fits the buffer.
Wherever steps and runs then lead, the machine has taken some number of steps, and the pixels set
are just those on the canvas that a move has led to after some `DRW`; their number is the number of
bits set, and without `DRW` the rows are zero. Pixels stay set, a step sets at most one of them, the
padding stays clear, and the buffer behind the rows is what it was. -/
theorem canvas_is_clipped_path (image : Image) {buffer : Bytes}
    (hfits : image.size.byteCount ≤ buffer.size) :
    ∃ m₀, Machine.load image buffer = .ok m₀ ∧ ∀ m, m₀.Reaches m →
      (∃ k, m₀.IsAfter k m) ∧
      (∀ k, m₀.IsAfter k m →
        (∀ x y, m.scene.canvas.get x y = true ↔ image.size.Contains x y ∧ m₀.Draws k x y) ∧
        m.scene.canvas.count =
          Set.ncard {p : Int × Int | image.size.Contains p.1 p.2 ∧ m₀.Draws k p.1 p.2} ∧
        ((∀ j < k, (m₀.after j).fetch? ≠ some .draw) →
          m.scene.canvas.bytes = Array.replicate image.size.byteCount 0)) ∧
      (∀ m', m.Reaches m' → ∀ x y, m.scene.canvas.get x y = true →
        m'.scene.canvas.get x y = true) ∧
      (∀ x y x' y',
        m.step.2.scene.canvas.get x y = true → m.scene.canvas.get x y = false →
        m.step.2.scene.canvas.get x' y' = true → m.scene.canvas.get x' y' = false →
        (x, y) = (x', y')) ∧
      m.scene.canvas.PaddingClear ∧
      m.scene.canvas.buffer.size = buffer.size ∧
      (∀ i, image.size.byteCount ≤ i → m.scene.canvas.buffer[i]? = buffer[i]?) := by
  obtain ⟨m₀, hload, hm₀⟩ := exists_isFresh image hfits
  refine ⟨m₀, hload, ?_⟩
  intro m hm
  have hpadding := hm.preserves_canvas (fun _ x y h => h.plot x y)
    (Canvas.paddingClear_of_blank hm₀.canvas)
  refine ⟨hm.exists_isAfter, ?_, ?_, ?_, hpadding, ?_, ?_⟩
  · intro k hk
    have hget : ∀ x y, m.scene.canvas.get x y = true ↔
        image.size.Contains x y ∧ m₀.Draws k x y := by
      intro x y
      rw [hk.scene]
      exact hm₀.get_after_iff k x y
    refine ⟨hget, ?_, ?_⟩
    · simp only [Canvas.count_eq_ncard hpadding, hget]
    · intro hnone
      rw [hk.scene, canvas_after_of_not_draw hm₀.pen_up hnone]
      exact Canvas.bytes_of_blank hm₀.canvas
  · intro m' hm' x y hget
    exact hm'.preserves_canvas (P := fun c => c.get x y = true)
      (fun c x' y' hc => (Canvas.get_plot c x' y' x y).mpr (.inl hc)) hget
  · intro x y x' y' hset hclear hset' hclear'
    -- Both are the pixel that the step inks.
    rcases (get_step_iff m x y).mp hset with hold | ⟨-, -, hpixel⟩
    · rw [hclear] at hold
      cases hold
    · rcases (get_step_iff m x' y').mp hset' with hold | ⟨-, -, hpixel'⟩
      · rw [hclear'] at hold
        cases hold
      · exact hpixel.symm.trans hpixel'
  · refine hm.preserves_canvas (P := fun c => c.buffer.size = buffer.size) ?_ ?_
    · intro c x y hc
      rw [Canvas.size_buffer_plot, hc]
    · rw [Canvas.buffer_of_blank hm₀.canvas, Canvas.size_clear]
  · intro i hi
    refine (hm.preserves_canvas
      (P := fun c => c.size = image.size ∧ c.buffer[i]? = buffer[i]?) ?_ ⟨hm₀.canvasSize, ?_⟩).2
    · intro c x y ⟨hsize, hc⟩
      exact ⟨(Canvas.plot_size c x y).trans hsize,
        (Canvas.getElem?_buffer_plot c x y (hsize ▸ hi)).trans hc⟩
    · rw [Canvas.buffer_of_blank hm₀.canvas, Canvas.getElem?_clear, if_neg (by omega)]

/-- `MOV`, `DRW`, `MOV`, `HLT` on 10 by 1 pixels, in a buffer with a byte to spare. -/
def penUpFirst : Machine :=
  ⟨#[2, 1, 2, 8], 0, .running, 0,
    ⟨.zero, .centred ⟨10, 1⟩, ⟨⟨10, 1⟩, #[0, 0, 255], by decide⟩⟩⟩

/-- The first move leads from the middle to the right with the pen up, and only the second is seen.
The byte behind the row keeps what it held. -/
theorem canvas_is_clipped_path_of_penUpFirst :
    (CanvasSize.mk 10 1).byteCount ≤ (#[255, 255, 255] : Bytes).size ∧
      Machine.load ⟨some ⟨10, 1⟩, #[2, 1, 2, 8]⟩ #[255, 255, 255] = .ok penUpFirst ∧
      (penUpFirst.runWith record [] 9).2.1.status = .halted ∧
      (penUpFirst.runWith record [] 9).2.1.scene.canvas.get 6 0 = false ∧
      (penUpFirst.runWith record [] 9).2.1.scene.canvas.get 7 0 = true ∧
      (penUpFirst.runWith record [] 9).2.1.scene.canvas.buffer[2]? = some 255 := by
  have hload : Machine.load ⟨some ⟨10, 1⟩, #[2, 1, 2, 8]⟩ #[255, 255, 255] = .ok penUpFirst := rfl
  have hfits : (CanvasSize.mk 10 1).byteCount ≤ (#[255, 255, 255] : Bytes).size := by decide
  obtain ⟨m₀, hm₀, hall⟩ := canvas_is_clipped_path ⟨some ⟨10, 1⟩, #[2, 1, 2, 8]⟩ hfits
  obtain rfl : m₀ = penUpFirst := Except.ok.inj (hm₀.symm.trans hload)
  obtain ⟨-, hpath, -, -, -, -, hrest⟩ := hall _ (Reaches.refl.run record [] 9)
  have hdrawn : penUpFirst.Draws 4 7 0 := by
    refine ⟨1, 2, by decide, by decide, rfl, rfl, ?_⟩
    decide +kernel
  exact ⟨hfits, hload, rfl, by decide +kernel, ((hpath 4 (.inl rfl)).1 7 0).mpr ⟨by decide, hdrawn⟩,
    hrest 2 (by decide)⟩

end TurtleVM.Machine
