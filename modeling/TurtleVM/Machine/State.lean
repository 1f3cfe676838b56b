import TurtleVM.Bytecode
import TurtleVM.Canvas
import TurtleVM.Image
import TurtleVM.Turtle

/-! # Machine states

A machine has code that never changes, a program counter, and the scene its instructions work on:
the registers, the turtle and the canvas. It also counts the instructions it has executed.

A machine that has halted or faulted stays as it is.
-/

namespace TurtleVM

/-! ### Scenes and machines -/

/-- What instructions can change apart from the program counter. -/
structure Scene where
  registers : Registers
  turtle : Turtle
  canvas : Canvas

/-- Whether a machine still runs. -/
inductive Status where
  | running | halted | faulted
  deriving DecidableEq

/-- A machine in the course of a program. -/
structure Machine where
  code : Bytes
  /-- Offset of the next instruction. -/
  pc : Nat
  status : Status
  /-- Instructions executed so far. -/
  steps : UInt64
  scene : Scene

namespace Machine

/-- A machine that is about to run an image, with the pixels in the front of a buffer. -/
def load (image : Image) (buffer : Bytes) : Except LoadError Machine := do
  let canvas ← Canvas.blank image.size buffer
  return { code := image.code
           pc := 0
           status := .running
           steps := 0
           scene := ⟨.zero, .centred image.size, canvas⟩ }

end Machine

/-! ### How programs end -/

/-- Why a machine cannot go on. -/
inductive Trap where
  /-- There is no instruction at the program counter. -/
  | decode (error : DecodeError)
  | divisionByZero
  /-- The run has used up the steps it was allowed. -/
  | stepLimit (limit : UInt64)
  /-- The machine has halted or faulted before. -/
  | notRunning
  deriving DecidableEq

/-- What to tell about a trap. -/
def Trap.message : Trap → String
  | decode error => error.message
  | divisionByZero => "division by zero"
  | stepLimit limit =>
    "step limit of " ++ toString limit.toNat ++ " instructions exceeded"
  | notRunning => "the machine is not running"

/-- A program that ended by itself. -/
structure Halted where
  /-- Offset of the instruction that stopped the machine. -/
  pc : Nat
  steps : UInt64

/-- A program that was stopped. -/
structure Fault where
  trap : Trap
  pc : Nat
  registers : Registers

/-- How a run ended. -/
abbrev Outcome := Except Fault Halted

end TurtleVM
