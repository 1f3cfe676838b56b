import TurtleVM.Proofs.AssembledCode
import TurtleVM.Proofs.Stepping

/-! # Running a program from its source

A source program runs without any code: it counts commands, not bytes, and a jump goes to the
command that stands behind the definition of its label. What a command does to the scene is what the
instruction set says.

A program is told apart from its machine code only by the place it has come to. Behind the last
command there is no other, so a program that gets there stops with a fault.
-/

namespace TurtleVM.Assembly

/-- Whether a jump is taken. -/
def Condition.holds (rs : Registers) : Condition → Bool
  | nonZero r => rs.get r != 0
  | comparison c r rhs => c.holds (rs.get r) (rhs.value rs)

/-- Why a source program cannot go on. -/
inductive Stop where
  /-- All commands are behind the program. -/
  | noCommand
  | divisionByZero
  /-- The program has halted or faulted before. -/
  | notRunning
  deriving DecidableEq

/-- A source program in the course of its run. -/
structure SourceState where
  /-- How many commands stand before the next one. -/
  index : Nat
  status : Status
  /-- Commands executed so far. -/
  steps : UInt64
  scene : Scene

namespace SourceState

/-- A program that is about to run on a canvas. -/
def initial (canvas : Canvas) : SourceState :=
  ⟨0, .running, 0, ⟨.zero, .centred canvas.size, canvas⟩⟩

/-- Executes the next command. -/
def step (lines : List Line) : SourceState → Except Stop Status × SourceState
  | ⟨index, .running, steps, scene⟩ =>
    match (commands lines)[index]? with
    | none => (.error .noCommand, ⟨index, .faulted, steps, scene⟩)
    | some (.jump condition label) =>
      let next := if condition.holds scene.registers then labelIndex lines label else index + 1
      (.ok .running, ⟨next, .running, countStep steps, scene⟩)
    | some (.plain i _) =>
      if i = .halt then (.ok .halted, ⟨index, .halted, countStep steps, scene⟩)
      else if (i.trap? scene.registers).isSome then
        (.error .divisionByZero, ⟨index, .faulted, countStep steps, scene⟩)
      else (.ok .running, ⟨index + 1, .running, countStep steps, (scene.perform i).1⟩)
  | s => (.error .notRunning, s)

/-- The program after a number of steps. -/
def after (lines : List Line) : Nat → SourceState → SourceState
  | 0, s => s
  | k + 1, s => (after lines k s).step lines |>.2

end SourceState

/-! ### Jumps -/

namespace Condition

variable (condition : Condition) (target : UInt16) (rs : Registers)

theorem jump?_jumpTo :
    (condition.jumpTo target).jump? rs = if condition.holds rs then some target else none := by
  cases condition with
  | nonZero r => simp [jumpTo, holds, Instruction.jump?]
  | comparison c r rhs => rfl

@[simp] theorem trap?_jumpTo : (condition.jumpTo target).trap? rs = none := by
  cases condition <;> rfl

@[simp] theorem perform_jumpTo (s : Scene) : s.perform (condition.jumpTo target) = (s, none) := by
  cases condition <;> rfl

theorem jumpTo_ne_halt : condition.jumpTo target ≠ .halt := by
  cases condition <;> exact nofun

end Condition

/-- An instruction without a target goes on behind itself. -/
theorem next_of_straight {i : Instruction} (h : i.jumpTarget? = none) (pc : Nat)
    (rs : Registers) : i.next pc rs = pc + i.width := by
  unfold Instruction.next
  split
  · rename_i target htarget
    rw [Instruction.jumpTarget?_of_jump? htarget] at h
    cases h
  · rfl

/-! ### Source and machine side by side -/

/-- The trap of a machine where a source program stops. -/
def Stop.trap (lines : List Line) : Stop → Trap
  | noCommand => .decode (.outsideCode (codeWidth lines))
  | divisionByZero => .divisionByZero
  | notRunning => .notRunning

/-- A machine is where a source program is: its counter stands behind the instructions of the
commands that stand before the next one, and all else is equal. -/
structure Corresponds (lines : List Line) (s : SourceState) (m : Machine) : Prop where
  code : m.code.toList = Bytecode.codeOf (program lines)
  index_le : s.index ≤ (commands lines).length
  pc : m.pc = Bytecode.widthOf ((program lines).take s.index)
  status : m.status = s.status
  steps : m.steps = s.steps
  scene : m.scene = s.scene

namespace Corresponds

variable {lines : List Line} {s : SourceState} {m : Machine}

/-- The machine reads the instruction of the next command. -/
theorem decode (h : Corresponds lines s m) {c : Command}
    (hc : (commands lines)[s.index]? = some c) :
    Bytecode.decode m.code m.pc = .ok (c.instruction (offsetWord lines)) := by
  have hi : (program lines)[s.index]? = some (c.instruction (offsetWord lines)) := by
    simp [program, instructions, hc]
  rw [h.pc]
  exact Bytecode.decode_codeOf h.code hi

/-- Behind the last command the machine has reached the end of its code. -/
theorem pc_end (h : Corresponds lines s m) (hindex : s.index = (commands lines).length) :
    m.pc = codeWidth lines := by
  rw [h.pc, hindex, ← length_program, List.take_length]
  exact widthOf_instructions _ _

theorem decode_end (h : Corresponds lines s m) (hc : (commands lines)[s.index]? = none) :
    Bytecode.decode m.code m.pc = .error (.outsideCode (codeWidth lines)) := by
  have hpc := h.pc_end (Nat.le_antisymm h.index_le (List.getElem?_eq_none_iff.mp hc))
  have hsize : m.code.size = codeWidth lines := by
    rw [Bytecode.size_of_toList_eq h.code]
    exact widthOf_instructions _ _
  rw [Bytecode.decode_of_size_le (by omega), hpc]

/-- Where a jump goes on, source and machine agree. -/
theorem next_jumpTo (h : Corresponds lines s m) (hshort : codeWidth lines ≤ 65535)
    {condition : Condition} {label : String}
    (hc : (commands lines)[s.index]? = some (.jump condition label)) (rs : Registers) :
    (condition.jumpTo (offsetWord lines label)).next m.pc rs =
      Bytecode.widthOf ((program lines).take
        (if condition.holds rs then labelIndex lines label else s.index + 1)) := by
  have hi : (program lines)[s.index]? = some (condition.jumpTo (offsetWord lines label)) := by
    simp [program, instructions, hc, Command.instruction]
  rw [Instruction.next, Condition.jump?_jumpTo]
  by_cases htaken : condition.holds rs
  · -- The offset of the label is the place behind the commands before it.
    simp only [htaken, if_true]
    rw [toNat_offsetWord _ hshort, widthOf_take_labelIndex]
  · simp only [htaken, Bool.false_eq_true, if_false]
    rw [Bytecode.widthOf_take_succ hi, h.pc]

/-- A jump changes nothing but the place. -/
theorem step_of_jump (h : Corresponds lines s m) (hshort : codeWidth lines ≤ 65535)
    (hrun : s.status = .running) {condition : Condition} {label : String}
    (hc : (commands lines)[s.index]? = some (.jump condition label)) :
    Corresponds lines (s.step lines).2 m.step.2 ∧
      m.step.1 = (s.step lines).1.mapError (Stop.trap lines) := by
  have hmrun : m.status = .running := h.status.trans hrun
  have hnext := h.next_jumpTo hshort hc m.scene.registers
  have hlt : s.index < (commands lines).length := (List.getElem?_eq_some_iff.mp hc).1
  obtain ⟨index, status, steps, scene⟩ := s
  obtain rfl : status = .running := hrun
  have hscene : m.scene = scene := h.scene
  rw [Machine.step_eq, Machine.stepWith_of_perform _ _ hmrun (h.decode hc)
    (condition.jumpTo_ne_halt _) (condition.trap?_jumpTo _ _)]
  simp only [SourceState.step, hc]
  refine ⟨⟨h.code, ?_, ?_, hmrun, congrArg countStep h.steps, ?_⟩, rfl⟩
  · show (if condition.holds scene.registers then labelIndex lines label else index + 1) ≤ _
    split
    · exact labelIndex_le lines label
    · exact hlt
  · rw [← hscene]
    exact hnext
  · show (m.scene.perform (condition.jumpTo _)).1 = scene
    rw [Condition.perform_jumpTo, hscene]

/-- Any other command acts on the same scene, and goes on with what comes next. -/
theorem step_of_plain (h : Corresponds lines s m) (hrun : s.status = .running) {i : Instruction}
    {straight : i.jumpTarget? = none}
    (hc : (commands lines)[s.index]? = some (.plain i straight)) :
    Corresponds lines (s.step lines).2 m.step.2 ∧
      m.step.1 = (s.step lines).1.mapError (Stop.trap lines) := by
  have hmrun : m.status = .running := h.status.trans hrun
  have hdecode := h.decode hc
  have hlt : s.index < (commands lines).length := (List.getElem?_eq_some_iff.mp hc).1
  have hi : (program lines)[s.index]? = some i := by
    simp [program, instructions, hc, Command.instruction]
  obtain ⟨index, status, steps, scene⟩ := s
  obtain rfl : status = .running := hrun
  have hscene : m.scene = scene := h.scene
  have hsteps : countStep m.steps = countStep steps := congrArg countStep h.steps
  by_cases hhalt : i = .halt
  · -- Both halt where they are.
    subst hhalt
    rw [Machine.step_eq, Machine.stepWith_of_halt _ _ hmrun hdecode]
    simp only [SourceState.step, hc, if_true]
    exact ⟨⟨h.code, h.index_le, h.pc, rfl, hsteps, h.scene⟩, rfl⟩
  cases htrap : i.trap? scene.registers with
  | some trap =>
    -- Both read the same registers, so both divide by zero.
    have hmtrap : i.trap? m.scene.registers = some .divisionByZero := by
      rw [hscene, htrap, Instruction.eq_divisionByZero_of_trap? htrap]
    rw [Machine.step_eq, Machine.stepWith_of_trap _ _ hmrun hdecode hmtrap]
    simp only [SourceState.step, hc, hhalt, htrap, if_false, Option.isSome_some, if_true]
    exact ⟨⟨h.code, h.index_le, h.pc, rfl, hsteps, h.scene⟩, rfl⟩
  | none =>
    have hmtrap : i.trap? m.scene.registers = none := by rw [hscene, htrap]
    rw [Machine.step_eq, Machine.stepWith_of_perform _ _ hmrun hdecode hhalt hmtrap]
    simp only [SourceState.step, hc, hhalt, htrap, if_false, Option.isSome_none,
      Bool.false_eq_true]
    refine ⟨⟨h.code, hlt, ?_, hmrun, hsteps, ?_⟩, rfl⟩
    · show i.next m.pc m.scene.registers = Bytecode.widthOf ((program lines).take (index + 1))
      rw [next_of_straight straight, Bytecode.widthOf_take_succ hi, h.pc]
    · show (m.scene.perform i).1 = (scene.perform i).1
      rw [hscene]

/-- Behind the last command neither has anything to fetch. -/
theorem step_of_end (h : Corresponds lines s m) (hrun : s.status = .running)
    (hc : (commands lines)[s.index]? = none) :
    Corresponds lines (s.step lines).2 m.step.2 ∧
      m.step.1 = (s.step lines).1.mapError (Stop.trap lines) := by
  have hmrun : m.status = .running := h.status.trans hrun
  obtain ⟨index, status, steps, scene⟩ := s
  obtain rfl : status = .running := hrun
  rw [Machine.step_eq, Machine.stepWith_of_decode_error _ _ hmrun (h.decode_end hc)]
  simp only [SourceState.step, hc]
  exact ⟨⟨h.code, h.index_le, h.pc, rfl, h.steps, h.scene⟩, rfl⟩

/-- Once stopped, both refuse to go on. -/
theorem step_of_stopped (h : Corresponds lines s m) (hstopped : s.status ≠ .running) :
    Corresponds lines (s.step lines).2 m.step.2 ∧
      m.step.1 = (s.step lines).1.mapError (Stop.trap lines) := by
  have hmstopped : m.status ≠ .running := fun hm => hstopped (h.status.symm.trans hm)
  have hrefuses : s.step lines = (.error .notRunning, s) := by
    obtain ⟨index, status, steps, scene⟩ := s
    cases status with
    | running => exact absurd rfl hstopped
    | halted => rfl
    | faulted => rfl
  rw [Machine.step_of_not_running hmstopped, hrefuses]
  exact ⟨h, rfl⟩

/-- One step of the machine is one step of the source. -/
theorem step (h : Corresponds lines s m) (hshort : codeWidth lines ≤ 65535) :
    Corresponds lines (s.step lines).2 m.step.2 ∧
      m.step.1 = (s.step lines).1.mapError (Stop.trap lines) := by
  by_cases hrun : s.status = .running
  · match hc : (commands lines)[s.index]? with
    | none => exact h.step_of_end hrun hc
    | some (.jump condition label) => exact h.step_of_jump hshort hrun hc
    | some (.plain i straight) => exact h.step_of_plain hrun hc
  · exact h.step_of_stopped hrun

/-- So they stay side by side for any number of steps. -/
theorem after (h : Corresponds lines s m) (hshort : codeWidth lines ≤ 65535) (k : Nat) :
    Corresponds lines (s.after lines k) (m.after k) := by
  induction k with
  | zero => exact h
  | succ k ih => exact (ih.step hshort).1

end Corresponds

/-! ### Assembled images -/

section

variable {capacity : Nat} {lines : List Line} {buffer written : Bytes} {d : Image.Descriptor}

/-- **Assembling preserves meaning.** The image that assembly writes can be loaded with its header.
On every canvas that fits its buffer the machine then corresponds to the source program after any
number of steps, and the next step of both has the same outcome. A source program without a next
command is a machine whose counter is at the end of its code and which faults there. -/
theorem assembled_code_simulates_source (h : assemble capacity lines buffer = (.ok d, written)) :
    ∃ image, Image.load (written.extract 0 d.length) = .ok image ∧
      image.size = canvasSize lines ∧ image.code.size = codeWidth lines ∧
      ∀ pixels : Bytes, (canvasSize lines).byteCount ≤ pixels.size →
        ∃ canvas m, Canvas.blank (canvasSize lines) pixels = .ok canvas ∧
          Machine.load image pixels = .ok m ∧
          ∀ k, Corresponds lines ((SourceState.initial canvas).after lines k) (m.after k) ∧
            (m.after k).step.1 =
              (((SourceState.initial canvas).after lines k).step lines).1.mapError
                (Stop.trap lines) ∧
            (((SourceState.initial canvas).after lines k).index = (commands lines).length →
              (m.after k).pc = image.code.size) := by
  have hshort : codeWidth lines ≤ 65535 := (assembles_of_assemble h).1.code_short
  have hsize : (Bytecode.codeOf (program lines)).toArray.size = codeWidth lines := by
    rw [List.size_toArray, Bytecode.length_codeOf, program, widthOf_instructions]
  refine ⟨_, load_of_assemble h, rfl, hsize, fun pixels hpixels => ?_⟩
  obtain ⟨canvas, hcanvas⟩ : ∃ canvas, Canvas.blank (canvasSize lines) pixels = .ok canvas :=
    ⟨_, dif_pos hpixels⟩
  have hcanvasSize : canvas.size = canvasSize lines := by
    rw [Canvas.blank, dif_pos hpixels] at hcanvas
    rw [← Except.ok.inj hcanvas]
  refine ⟨canvas, _, hcanvas, Machine.load_eq_ok_iff.mpr ⟨canvas, hcanvas, rfl⟩, fun k => ?_⟩
  have hstart : Corresponds lines (SourceState.initial canvas)
      ⟨(Bytecode.codeOf (program lines)).toArray, 0, .running, 0,
        ⟨.zero, .centred (canvasSize lines), canvas⟩⟩ :=
    ⟨rfl, Nat.zero_le _, rfl, rfl, rfl, by rw [SourceState.initial, hcanvasSize]⟩
  -- The fresh machine corresponds to the fresh program, and steps keep that.
  have hk := hstart.after hshort k
  exact ⟨hk, (hk.step hshort).2, fun hindex => (hk.pc_end hindex).trans hsize.symm⟩

/-- A loop that is left by a jump over a move to the end, on a canvas of 8 by 8 pixels. -/
def countdown : List Line :=
  [⟨1, [.mnemonic "width", .number 8]⟩,
    ⟨2, [.mnemonic "HEIGHT", .number 8]⟩,
    ⟨3, [.mnemonic "STO", .register .b, .number 2]⟩,
    ⟨4, [.definition "again", .mnemonic "DEC", .register .b]⟩,
    ⟨5, [.mnemonic "JNZ", .register .b, .reference "again"]⟩,
    ⟨6, [.mnemonic "JEQ", .register .b, .number 0, .reference "end"]⟩,
    ⟨7, [.mnemonic "MOV"]⟩,
    ⟨8, [.definition "end"]⟩]

theorem assembled_countdown_simulates_source :
    ∃ d written image, assemble 2 countdown (Array.replicate 32 0) = (.ok d, written) ∧
      Image.load (written.extract 0 d.length) = .ok image ∧
      ∃ canvas m, Canvas.blank (canvasSize countdown) (Array.replicate 8 0) = .ok canvas ∧
        Machine.load image (Array.replicate 8 0) = .ok m ∧
        ∀ k, Corresponds countdown ((SourceState.initial canvas).after countdown k)
          (m.after k) := by
  rcases h : assemble 2 countdown (Array.replicate 32 0) with ⟨outcome, written⟩
  have houtcome : outcome.toOption = some ⟨21, 8, 8⟩ := by
    rw [show outcome = (assemble 2 countdown (Array.replicate 32 0)).1 by rw [h]]
    decide +kernel
  cases outcome with
  | error e => cases houtcome
  | ok d =>
    obtain ⟨image, himage, -, -, hall⟩ := assembled_code_simulates_source h
    have hpixels : (canvasSize countdown).byteCount ≤ (Array.replicate 8 (0 : UInt8)).size := by
      decide +kernel
    obtain ⟨canvas, m, hcanvas, hm, hk⟩ := hall (Array.replicate 8 0) hpixels
    exact ⟨d, written, image, rfl, himage, canvas, m, hcanvas, hm, fun k => (hk k).1⟩

end

end TurtleVM.Assembly
