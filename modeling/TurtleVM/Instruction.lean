import TurtleVM.Register
import TurtleVM.Text.Hexadecimal

/-! # Instructions

An instruction works on registers, moves the turtle, or decides where the program goes on. The
two-operand arithmetic instructions share one shape, and so do the comparing jumps: each has a
register on the left and, on the right, either a register or a 16-bit immediate.

Jump targets are byte offsets into the code. Since an offset is a 16-bit word, no target lies
beyond offset 65535.
-/

namespace TurtleVM

/-- Arithmetic that combines a register with an operand and keeps the result in the register.
`store` keeps the operand alone. -/
inductive Arithmetic where
  | store | add | subtract | multiply | divide
  deriving DecidableEq

/-- Signed comparisons that a jump can ask for. -/
inductive Comparison where
  | equal | notEqual | greater | less
  deriving DecidableEq

/-- Right-hand side of arithmetic and comparisons. -/
inductive Operand where
  /-- An unsigned 16-bit constant. -/
  | immediate (value : UInt16)
  /-- The word in a register. -/
  | register (r : Register)
  deriving DecidableEq

/-- A decoded instruction. -/
inductive Instruction where
  /-- Put the pen down; it stays down. -/
  | draw
  /-- Move one unit along the heading. -/
  | move
  | halt
  | increment (r : Register)
  | incrementBy (r : Register) (amount : UInt16)
  | decrement (r : Register)
  | arithmetic (f : Arithmetic) (r : Register) (rhs : Operand)
  /-- `dest` becomes `src` times the factor. -/
  | multiplyInto (dest src : Register) (factor : UInt16)
  | jumpIfNonZero (r : Register) (target : UInt16)
  | jumpIf (c : Comparison) (r : Register) (rhs : Operand) (target : UInt16)
  deriving DecidableEq

/-! ### Operands -/

namespace Operand

/-- Whether the operand is a register. -/
def isRegister : Operand → Bool
  | immediate _ => false
  | register _ => true

/-- An immediate in decimal, a register by its letter. -/
def text : Operand → String
  | immediate value => toString value.toNat
  | register r => r.text

end Operand

/-! ### Operations -/

/-- What an instruction does, without its operands. -/
inductive Operation where
  | draw | move | halt
  | increment | incrementBy | decrement
  | arithmetic (f : Arithmetic)
  | multiplyInto
  | jumpIfNonZero
  | jumpIf (c : Comparison)
  deriving DecidableEq

/-- Assembly name of the operation. The increment by a constant and the three-operand
multiplication go by the names of their shorter forms. -/
def Operation.mnemonic : Operation → String
  | draw => "DRW"
  | move => "MOV"
  | halt => "HLT"
  | increment | incrementBy => "INC"
  | decrement => "DEC"
  | arithmetic .store => "STO"
  | arithmetic .add => "ADD"
  | arithmetic .subtract => "SUB"
  | arithmetic .multiply | multiplyInto => "MUL"
  | arithmetic .divide => "DIV"
  | jumpIfNonZero => "JNZ"
  | jumpIf .equal => "JEQ"
  | jumpIf .notEqual => "JNE"
  | jumpIf .greater => "JGT"
  | jumpIf .less => "JLT"

/-! ### Operands and text of an instruction -/

namespace Instruction

/-- The operation of an instruction. -/
def operation : Instruction → Operation
  | draw => .draw
  | move => .move
  | halt => .halt
  | increment _ => .increment
  | incrementBy _ _ => .incrementBy
  | decrement _ => .decrement
  | arithmetic f _ _ => .arithmetic f
  | multiplyInto _ _ _ => .multiplyInto
  | jumpIfNonZero _ _ => .jumpIfNonZero
  | jumpIf c _ _ _ => .jumpIf c

/-- The offset that the instruction may jump to. -/
def jumpTarget? : Instruction → Option UInt16
  | jumpIfNonZero _ target | jumpIf _ _ _ target => some target
  | _ => none

/-- The name that stands for an offset in the text of a jump. -/
def targetName (target : UInt16) : String := "@" ++ Text.hexadecimal 4 target.toNat

/-- The operands as they are written after the mnemonic. -/
def operandTexts : Instruction → List String
  | draw | move | halt => []
  | increment r | decrement r => [r.text]
  | incrementBy r amount => [r.text, toString amount.toNat]
  | arithmetic _ r rhs => [r.text, rhs.text]
  | multiplyInto dest src factor => [dest.text, src.text, toString factor.toNat]
  | jumpIfNonZero r target => [r.text, targetName target]
  | jumpIf _ r rhs target => [r.text, rhs.text, targetName target]

/-- The instruction as assembly: mnemonic and operands separated by single spaces. -/
def text (i : Instruction) : String := " ".intercalate (i.operation.mnemonic :: i.operandTexts)

example : (jumpIf .less .b (.immediate 7) 10).text = "JLT B 7 @0x000a" := by decide

end Instruction

end TurtleVM
