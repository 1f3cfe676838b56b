/-! # Registers

The machine has eight registers, `A` to `H`, each holding a signed 32-bit word. Register `A`
doubles as the turtle's heading in degrees. This file names the registers, and keeps the words
in a register file whose reads and writes obey the two usual laws.
-/

namespace TurtleVM

/-- One of the eight registers. -/
inductive Register where
  | a | b | c | d | e | f | g | h
  deriving DecidableEq

namespace Register

/-- Position of the register in the register file. -/
def index : Register → Fin 8
  | a => 0 | b => 1 | c => 2 | d => 3 | e => 4 | f => 5 | g => 6 | h => 7

/-- The registers in order. -/
def all : List Register := [a, b, c, d, e, f, g, h]

/-- The byte that stands for the register in code. -/
def byte (r : Register) : UInt8 := UInt8.ofNat r.index

/-- The register that a byte of code stands for. -/
def ofByte? (value : UInt8) : Option Register := all[value.toNat]?

/-- The register's upper-case letter. -/
def letter : Register → Char
  | a => 'A' | b => 'B' | c => 'C' | d => 'D' | e => 'E' | f => 'F' | g => 'G' | h => 'H'

/-- The register that a word names: its letter alone, in either case. -/
def ofName? : List Char → Option Register
  | [name] => all.find? fun r => r.letter == name.toUpper
  | _ => none

theorem index_injective {r s : Register} (h : r.index = s.index) : r = s := by
  cases r <;> cases s <;> first | rfl | exact absurd h (by decide)

@[simp] theorem ofByte?_byte (r : Register) : ofByte? r.byte = some r := by
  cases r <;> rfl

@[simp] theorem ofName?_letter (r : Register) : ofName? [r.letter] = some r := by
  cases r <;> rfl

/-- The text of a register is its letter. -/
def text (r : Register) : String := String.singleton r.letter

end Register

/-! ### The register file -/

/-- The words of all eight registers. -/
structure Registers where
  words : Vector Int32 8

namespace Registers

/-- Every register holds zero. -/
def zero : Registers := ⟨Vector.replicate 8 0⟩

/-- The word in a register. -/
def get (rs : Registers) (r : Register) : Int32 := rs.words[r.index]

/-- The file after a word is put into a register. -/
def set (rs : Registers) (r : Register) (value : Int32) : Registers :=
  ⟨rs.words.set r.index value⟩

@[simp] theorem get_zero (r : Register) : zero.get r = 0 := by
  simp [get, zero]

theorem get_set (rs : Registers) (r s : Register) (value : Int32) :
    (rs.set r value).get s = if r = s then value else rs.get s := by
  by_cases h : r = s
  · subst h; simp [get, set]
  · have : (r.index : Nat) ≠ s.index := fun e => h (Register.index_injective (Fin.ext e))
    simp [get, set, this, h]

@[simp] theorem get_set_self (rs : Registers) (r : Register) (value : Int32) :
    (rs.set r value).get r = value := by
  simp [get_set]

/-- The words from `A` to `H`. -/
def toList (rs : Registers) : List Int32 := Register.all.map rs.get

/-- Each register with its word, as in `A=0 B=-5`, separated by single spaces. -/
def text (rs : Registers) : String :=
  " ".intercalate <| Register.all.map fun r => r.text ++ "=" ++ toString (rs.get r).toInt

end Registers

end TurtleVM
