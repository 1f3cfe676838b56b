import TurtleVM.Opcode
import TurtleVM.Word

/-! # Bytecode

An instruction is written as its opcode, then its fields in the order of the assembly text: a
register takes one byte, an immediate or a target a word. Code is a plain sequence of such
encodings, read back by `decode` at any offset.

Decoding reads from left to right and stops at the first thing that is wrong, so of two faults
in one instruction the earlier byte is reported.
-/

namespace TurtleVM

/-! ### Encoding -/

/-- The bytes of an operand. Its form is told by the opcode. -/
def Operand.bytes : Operand → List UInt8
  | .immediate value => Word.bytes value
  | .register r => [r.byte]

namespace Instruction

/-- The bytes of the fields after the opcode. -/
def fieldBytes : Instruction → List UInt8
  | draw | move | halt => []
  | increment r | decrement r => [r.byte]
  | incrementBy r amount => r.byte :: Word.bytes amount
  | arithmetic _ r rhs => r.byte :: rhs.bytes
  | multiplyInto dest src factor => dest.byte :: src.byte :: Word.bytes factor
  | jumpIfNonZero r target => r.byte :: Word.bytes target
  | jumpIf _ r rhs target => r.byte :: (rhs.bytes ++ Word.bytes target)

/-- The bytes of an instruction. -/
def encode (i : Instruction) : List UInt8 := i.opcode.byte :: i.fieldBytes

@[simp] theorem length_encode (i : Instruction) : i.encode.length = i.width := by
  cases i with
  | arithmetic _ _ rhs => cases rhs <;> rfl
  | jumpIf _ _ rhs _ => cases rhs <;> rfl
  | _ => rfl

end Instruction

/-! ### Decoding -/

/-- Why there is no instruction at an offset. -/
inductive DecodeError where
  /-- The offset read lies outside the code. -/
  | outsideCode (offset : Nat)
  /-- The byte is no opcode. -/
  | invalidOpcode (byte : UInt8)
  /-- The byte stands for no register. -/
  | registerOutOfRange (byte : UInt8)
  deriving DecidableEq

/-- What to tell about a decoding error. -/
def DecodeError.message : DecodeError → String
  | outsideCode offset =>
    "program counter " ++ toString offset ++ " is outside the instruction stream"
  | invalidOpcode byte =>
    "the byte " ++ Text.hexadecimal 2 byte.toNat ++ " is an invalid opcode"
  | registerOutOfRange byte => "register index " ++ toString byte.toNat ++ " is out of range"

namespace Bytecode

/-- The byte at an offset. -/
def byteAt (code : Bytes) (offset : Nat) : Except DecodeError UInt8 :=
  if h : offset < code.size then .ok code[offset] else .error (.outsideCode offset)

/-- The word at an offset. -/
def wordAt (code : Bytes) (offset : Nat) : Except DecodeError UInt16 := do
  let low ← byteAt code offset
  let high ← byteAt code (offset + 1)
  return Word.ofBytes low high

/-- The opcode at an offset. -/
def opcodeAt (code : Bytes) (offset : Nat) : Except DecodeError Opcode := do
  let byte ← byteAt code offset
  match Opcode.ofByte? byte with
  | some opcode => return opcode
  | none => throw (.invalidOpcode byte)

/-- The register named at an offset. -/
def registerAt (code : Bytes) (offset : Nat) : Except DecodeError Register := do
  let byte ← byteAt code offset
  match Register.ofByte? byte with
  | some r => return r
  | none => throw (.registerOutOfRange byte)

/-- The operand at an offset, in the form that the opcode told. -/
def operandAt (registerForm : Bool) (code : Bytes) (offset : Nat) : Except DecodeError Operand :=
  if registerForm then return .register (← registerAt code offset)
  else return .immediate (← wordAt code offset)

/-- Bytes that an operand of the form takes. -/
def operandWidth (registerForm : Bool) : Nat := if registerForm then 1 else 2

/-- The instruction that starts at an offset. -/
def decode (code : Bytes) (offset : Nat) : Except DecodeError Instruction := do
  let opcode ← opcodeAt code offset
  let form := opcode.registerForm
  match opcode.operation with
  | .draw => return .draw
  | .move => return .move
  | .halt => return .halt
  | .increment => return .increment (← registerAt code (offset + 1))
  | .decrement => return .decrement (← registerAt code (offset + 1))
  | .incrementBy =>
    let r ← registerAt code (offset + 1)
    return .incrementBy r (← wordAt code (offset + 2))
  | .arithmetic f =>
    let r ← registerAt code (offset + 1)
    return .arithmetic f r (← operandAt form code (offset + 2))
  | .multiplyInto =>
    let dest ← registerAt code (offset + 1)
    let src ← registerAt code (offset + 2)
    return .multiplyInto dest src (← wordAt code (offset + 3))
  | .jumpIfNonZero =>
    let r ← registerAt code (offset + 1)
    return .jumpIfNonZero r (← wordAt code (offset + 2))
  | .jumpIf c =>
    let r ← registerAt code (offset + 1)
    let rhs ← operandAt form code (offset + 2)
    return .jumpIf c r rhs (← wordAt code (offset + 2 + operandWidth form))

end Bytecode

end TurtleVM
