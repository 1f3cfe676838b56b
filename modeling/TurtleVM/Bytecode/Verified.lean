import TurtleVM.Bytecode.OffsetSet
import TurtleVM.Bytecode.Walk

/-! # Static verification

Code is sound when the linear walk over it meets no undecodable offset and every jump lands on
the first byte of an instruction or right behind the last one. Landing behind the last one is
allowed here, since only the run can tell whether the jump is ever taken.

An undecodable offset is blamed before any jump, and of several bad jumps the first.
-/

namespace TurtleVM.Bytecode

/-- What is wrong with a code. -/
inductive Defect where
  | undecodable (u : Undecodable)
  /-- The jump at `offset` has a target beyond the end of the code. -/
  | targetOutOfBounds (offset : Nat) (target : UInt16)
  /-- The jump at `offset` has a target inside an instruction. -/
  | targetMisaligned (offset : Nat) (target : UInt16)
  deriving DecidableEq

/-- What to tell about a defect. -/
def Defect.message : Defect → String
  | undecodable u => u.message
  | targetOutOfBounds offset target =>
    "jump at offset " ++ toString offset ++ " targets " ++ toString target.toNat ++
      ", past the end of the stream"
  | targetMisaligned offset target =>
    "jump at offset " ++ toString offset ++ " targets " ++ toString target.toNat ++
      ", inside another instruction"

/-- All instructions of a code, if every one of them can be decoded. -/
def instructions (code : Bytes) : Except Undecodable (List Located) := (walk code).mapM id

/-- Where a jump may land: on any of the instructions, or at the end of the code. -/
def landings (code : Bytes) (located : List Located) : OffsetSet :=
  (OffsetSet.ofList (located.map (·.offset))).mark code.size

/-- The defect of one instruction, if its jump goes to a bad target. -/
def jumpDefect? (code : Bytes) (landings : OffsetSet) (l : Located) : Option Defect :=
  match l.instruction.jumpTarget? with
  | none => none
  | some target =>
    if code.size < target.toNat then some (.targetOutOfBounds l.offset target)
    else if landings.contains target.toNat then none
    else some (.targetMisaligned l.offset target)

/-- How many instructions a sound code has, or the defect of an unsound one. -/
def verify (code : Bytes) : Except Defect Nat :=
  match instructions code with
  | .error u => .error (.undecodable u)
  | .ok located =>
    match located.findSome? (jumpDefect? code (landings code located)) with
    | some defect => .error defect
    | none => .ok located.length

end TurtleVM.Bytecode
