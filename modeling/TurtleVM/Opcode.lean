import TurtleVM.Instruction

/-! # Opcodes

The first byte of an encoded instruction, its opcode, names an operation and says whether the
right-hand operand is a register. The operations are numbered from 1 without a gap; the top bit
of the byte is set exactly for the register form, which only arithmetic and comparing jumps have.

The opcode alone fixes how many bytes the instruction takes. This is what lets offsets be laid
out before any jump target is known.
-/

namespace TurtleVM

namespace Operation

/-- The number of the operation. -/
def number : Operation → UInt8
  | draw => 1
  | move => 2
  | arithmetic .store => 3
  | increment => 4
  | arithmetic .add => 5
  | decrement => 6
  | jumpIfNonZero => 7
  | halt => 8
  | arithmetic .multiply => 9
  | jumpIf .greater => 10
  | arithmetic .subtract => 11
  | jumpIf .equal => 12
  | jumpIf .notEqual => 13
  | jumpIf .less => 14
  | arithmetic .divide => 15
  | incrementBy => 16
  | multiplyInto => 17

/-- The operation with a given number. -/
def ofNumber? : UInt8 → Option Operation
  | 1 => some draw
  | 2 => some move
  | 3 => some (arithmetic .store)
  | 4 => some increment
  | 5 => some (arithmetic .add)
  | 6 => some decrement
  | 7 => some jumpIfNonZero
  | 8 => some halt
  | 9 => some (arithmetic .multiply)
  | 10 => some (jumpIf .greater)
  | 11 => some (arithmetic .subtract)
  | 12 => some (jumpIf .equal)
  | 13 => some (jumpIf .notEqual)
  | 14 => some (jumpIf .less)
  | 15 => some (arithmetic .divide)
  | 16 => some incrementBy
  | 17 => some multiplyInto
  | _ => none

@[simp] theorem ofNumber?_number (o : Operation) : ofNumber? o.number = some o := by
  cases o with
  | arithmetic f => cases f <;> rfl
  | jumpIf c => cases c <;> rfl
  | _ => rfl

/-- No two numbers stand for one operation. -/
theorem eq_number_of_ofNumber? {n : UInt8} {o : Operation} (h : ofNumber? n = some o) :
    n = o.number := by
  unfold ofNumber? at h
  split at h <;> cases h <;> rfl

/-- Whether the right-hand operand may be a register. -/
def hasRegisterForm : Operation → Bool
  | arithmetic _ | jumpIf _ => true
  | _ => false

end Operation

/-! ### Opcode bytes -/

/-- An operation and the form of its right-hand operand. -/
structure Opcode where
  operation : Operation
  /-- The right-hand operand is a register. -/
  registerForm : Bool
  allowed : registerForm = true → operation.hasRegisterForm = true := by simp
  deriving DecidableEq

namespace Opcode

/-- The top bit of an opcode byte, which marks the register form. -/
def formBit : UInt8 := 0x80

/-- The byte of an opcode. -/
def byte (o : Opcode) : UInt8 :=
  if o.registerForm then o.operation.number + formBit else o.operation.number

/-- The opcode of a byte: the operation that the byte without its top bit numbers, in the form
that the top bit tells. A form that the operation lacks is no opcode. -/
def ofByte? (value : UInt8) : Option Opcode :=
  if formBit ≤ value then
    match Operation.ofNumber? (value - formBit) with
    | some operation =>
      if h : operation.hasRegisterForm = true then some ⟨operation, true, fun _ => h⟩ else none
    | none => none
  else (Operation.ofNumber? value).map fun operation => ⟨operation, false, nofun⟩

/-- Numbers stay below the top bit. -/
theorem number_lt_formBit (operation : Operation) : operation.number < formBit := by
  cases operation with
  | arithmetic f => cases f <;> decide
  | jumpIf c => cases c <;> decide
  | _ => decide

theorem formBit_le_number_add (operation : Operation) :
    formBit ≤ operation.number + formBit := by
  cases operation with
  | arithmetic f => cases f <;> decide
  | jumpIf c => cases c <;> decide
  | _ => decide

@[simp] theorem ofByte?_byte (o : Opcode) : ofByte? o.byte = some o := by
  obtain ⟨operation, form, allowed⟩ := o
  cases form with
  | false =>
    have h : ¬ formBit ≤ operation.number := UInt8.not_le.mpr (number_lt_formBit operation)
    simp [ofByte?, byte, h]
  | true =>
    have h := formBit_le_number_add operation
    simp [ofByte?, byte, h, allowed]

/-- No two bytes stand for one opcode. -/
theorem eq_byte_of_ofByte? {value : UInt8} {o : Opcode} (h : ofByte? value = some o) :
    value = o.byte := by
  unfold ofByte? at h
  split at h
  · split at h
    · rename_i operation hop
      split at h
      · cases h
        have := Operation.eq_number_of_ofNumber? hop
        simp [byte, ← this]
      · cases h
    · cases h
  · obtain ⟨operation, hop, rfl⟩ := Option.map_eq_some_iff.mp h
    exact Operation.eq_number_of_ofNumber? hop

/-- Bytes of the whole instruction, the opcode included. A register takes one byte, an immediate
or a target two. -/
def width (o : Opcode) : Nat :=
  match o.operation with
  | .draw | .move | .halt => 1
  | .increment | .decrement => 2
  | .arithmetic _ => if o.registerForm then 3 else 4
  | .incrementBy => 4
  | .multiplyInto => 5
  | .jumpIfNonZero => 4
  | .jumpIf _ => if o.registerForm then 5 else 6

theorem width_pos (o : Opcode) : 0 < o.width := by
  unfold width; split <;> (try split) <;> omega

end Opcode

/-! ### Opcodes of instructions -/

namespace Instruction

/-- The opcode of an instruction. -/
def opcode (i : Instruction) : Opcode :=
  match i with
  | arithmetic f _ rhs => ⟨.arithmetic f, rhs.isRegister, fun _ => rfl⟩
  | jumpIf c _ rhs _ => ⟨.jumpIf c, rhs.isRegister, fun _ => rfl⟩
  | _ => ⟨i.operation, false, nofun⟩

@[simp] theorem opcode_operation (i : Instruction) : i.opcode.operation = i.operation := by
  cases i <;> rfl

/-- Bytes of the encoded instruction. -/
def width (i : Instruction) : Nat := i.opcode.width

theorem width_pos (i : Instruction) : 0 < i.width := i.opcode.width_pos

end Instruction

end TurtleVM
