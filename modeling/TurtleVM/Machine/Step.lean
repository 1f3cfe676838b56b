import TurtleVM.Machine.State

/-! # Executing one instruction

An instruction first acts on the scene and then decides where the program goes on. Arithmetic is on
signed 32-bit words and wraps around; division rounds towards zero; comparisons are signed. An
operand is read before the destination is written, so it may be the same register.

Whoever watches a machine is told of each instruction before it acts, and of each point that the
turtle plots. Watching takes part in nothing: the watcher's own state is only passed along.
-/

namespace TurtleVM

/-! ### What instructions compute -/

/-- The word of an operand. Immediates are never negative. -/
def Operand.value (rs : Registers) : Operand → Int32
  | immediate value => Int32.ofNat value.toNat
  | register r => rs.get r

/-- The result of arithmetic on two words. A machine never divides by zero: see
`Instruction.trap?`. -/
def Arithmetic.eval (f : Arithmetic) (left right : Int32) : Int32 :=
  match f with
  | store => right
  | add => left + right
  | subtract => left - right
  | multiply => left * right
  | divide => left / right

/-- Whether a comparison holds between two words. -/
def Comparison.holds (c : Comparison) (left right : Int32) : Bool :=
  match c with
  | equal => left == right
  | notEqual => left != right
  | greater => decide (right < left)
  | less => decide (left < right)

/-! ### What instructions do to the scene -/

/-- A point that the turtle plotted, on or off the canvas. -/
structure Plot where
  x : Int
  y : Int
  onCanvas : Bool

namespace Scene

/-- The scene with another word in a register. -/
def setRegister (r : Register) (value : Int32) : Scene → Scene
  | ⟨registers, turtle, canvas⟩ => ⟨registers.set r value, turtle, canvas⟩

/-- The scene with the pen down. -/
def penDown : Scene → Scene
  | ⟨registers, turtle, canvas⟩ => ⟨registers, { turtle with drawing := true }, canvas⟩

/-- The scene after one move along the heading in register `A`, and the point plotted if the pen
is down. -/
def moveTurtle : Scene → Scene × Option Plot
  | ⟨registers, turtle, canvas⟩ =>
    let turtle := turtle.advance (registers.get .a)
    if turtle.drawing then
      let (x, y) := turtle.pixel
      let (onCanvas, canvas) := canvas.plot x y
      (⟨registers, turtle, canvas⟩, some ⟨x, y, onCanvas⟩)
    else (⟨registers, turtle, canvas⟩, none)

/-- What an instruction does to the scene, and the point that it plots. -/
def perform (i : Instruction) (s : Scene) : Scene × Option Plot :=
  match i with
  | .draw => (s.penDown, none)
  | .move => s.moveTurtle
  | .increment r => (s.setRegister r (s.registers.get r + 1), none)
  | .incrementBy r amount =>
    (s.setRegister r (s.registers.get r + Int32.ofNat amount.toNat), none)
  | .decrement r => (s.setRegister r (s.registers.get r - 1), none)
  | .arithmetic f r rhs =>
    (s.setRegister r (f.eval (s.registers.get r) (rhs.value s.registers)), none)
  | .multiplyInto dest src factor =>
    (s.setRegister dest (s.registers.get src * Int32.ofNat factor.toNat), none)
  | .halt | .jumpIfNonZero _ _ | .jumpIf _ _ _ _ => (s, none)

end Scene

/-! ### How instructions end -/

/-- The trap that keeps an instruction from acting: a division whose divisor is zero. -/
def Instruction.trap? (i : Instruction) (rs : Registers) : Option Trap :=
  match i with
  | .arithmetic .divide _ rhs => if rhs.value rs = 0 then some .divisionByZero else none
  | _ => none

/-- The offset that an instruction jumps to, if it jumps. -/
def Instruction.jump? (i : Instruction) (rs : Registers) : Option UInt16 :=
  match i with
  | .jumpIfNonZero r target => if rs.get r ≠ 0 then some target else none
  | .jumpIf c r rhs target => if c.holds (rs.get r) (rhs.value rs) then some target else none
  | _ => none

/-- The offset where the program goes on after an instruction at `pc`. -/
def Instruction.next (i : Instruction) (pc : Nat) (rs : Registers) : Nat :=
  match i.jump? rs with
  | some target => target.toNat
  | none => pc + i.width

/-! ### Steps -/

/-- What a watcher of a machine is told. -/
inductive Event where
  /-- The instruction at `pc` is about to act on these registers. -/
  | step (pc : Nat) (i : Instruction) (registers : Registers)
  /-- The turtle plotted a point. -/
  | plot (p : Plot)
  | halt (h : Halted)
  | fault (f : Fault)

/-- One more step, counted up to the greatest 64-bit word. -/
def countStep (steps : UInt64) : UInt64 := if steps + 1 = 0 then steps else steps + 1

namespace Machine

/-- Executes the instruction at the program counter under the eyes of a watcher. Gives the status
the machine is left in, or the trap that stopped it, then the machine and the watcher's state. -/
@[specialize] def stepWith {σ : Type} (watch : σ → Event → σ) (state : σ) :
    Machine → Except Trap Status × Machine × σ
  | ⟨code, pc, .running, steps, scene⟩ =>
    match Bytecode.decode code pc with
    | .error e => (.error (.decode e), ⟨code, pc, .faulted, steps, scene⟩, state)
    | .ok i =>
      let state := watch state (.step pc i scene.registers)
      -- From here on the instruction counts, even if it halts or is trapped.
      let steps := countStep steps
      if i = .halt then (.ok .halted, ⟨code, pc, .halted, steps, scene⟩, state)
      else
        match i.trap? scene.registers with
        | some trap => (.error trap, ⟨code, pc, .faulted, steps, scene⟩, state)
        | none =>
          -- Where to go on is decided on the registers as they are before the instruction acts.
          let next := i.next pc scene.registers
          let (scene, plotted) := scene.perform i
          let state := match plotted with
            | some p => watch state (.plot p)
            | none => state
          (.ok .running, ⟨code, next, .running, steps, scene⟩, state)
  | m => (.error .notRunning, m, state)

/-- A machine that does not run stays as it is. -/
theorem stepWith_of_not_running {σ : Type} (watch : σ → Event → σ) (state : σ) {m : Machine}
    (h : m.status ≠ .running) : m.stepWith watch state = (.error .notRunning, m, state) := by
  obtain ⟨code, pc, status, steps, scene⟩ := m
  cases status with
  | running => exact absurd rfl h
  | halted => rfl
  | faulted => rfl

/-- Executes the instruction at the program counter. -/
def step (m : Machine) : Except Trap Status × Machine :=
  let (result, m, ()) := m.stepWith (fun _ _ => ()) ()
  (result, m)

end Machine

end TurtleVM
