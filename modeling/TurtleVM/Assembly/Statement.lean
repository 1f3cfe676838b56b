import TurtleVM.Assembly.Token

/-! # Statements

A mnemonic with its operands states an instruction or a side of the canvas. The shapes of the
operands are fixed by the mnemonic; a number must fit where it stands.

Jump targets are named by labels, so reading a statement asks a resolver for the offset that a
label is bound to. The resolver is asked last: every other operand has been accepted by then. While
offsets are still being laid out any resolver will do, because no width depends on its answers.
-/

namespace TurtleVM.Assembly

/-- What an instruction line states. -/
inductive Statement where
  /-- An instruction to be written. -/
  | instruction (i : Instruction)
  /-- The length of a side of the canvas. -/
  | side (s : Side) (length : UInt16)
  deriving DecidableEq

namespace Statement

/-- A number as an unsigned 16-bit word. -/
def immediate (value : Int) : Except Cause UInt16 :=
  if 0 ≤ value ∧ value < 65536 then .ok (UInt16.ofNat value.toNat)
  else .error (.immediateOutOfRange value)

/-- A number as the side of a canvas, which is never zero. -/
def sideLength (value : Int) : Except Cause UInt16 :=
  if 1 ≤ value ∧ value < 65536 then .ok (UInt16.ofNat value.toNat)
  else .error (.sideOutOfRange value)

/-- A token as the right-hand operand. -/
def rightHand (m : Mnemonic) : Token → Except Cause Operand
  | .register r => return .register r
  | .number value => return .immediate (← immediate value)
  | _ => throw (.invalidOperands m)

/-- The statement of a mnemonic and its operands, where `resolve` gives the offsets of labels. -/
def parse (m : Mnemonic) (operands : List Token) (resolve : String → Except Cause UInt16) :
    Except Cause Statement :=
  match m, operands with
  | .draw, [] => return instruction .draw
  | .move, [] => return instruction .move
  | .halt, [] => return instruction .halt
  | .increment, [.register r] => return instruction (.increment r)
  | .increment, [.register r, .number value] =>
    return instruction (.incrementBy r (← immediate value))
  | .decrement, [.register r] => return instruction (.decrement r)
  | .arithmetic f, [.register r, rhs] =>
    return instruction (.arithmetic f r (← rightHand m rhs))
  | .arithmetic .multiply, [.register dest, .register src, .number value] =>
    return instruction (.multiplyInto dest src (← immediate value))
  | .jumpIfNonZero, [.register r, .reference label] =>
    return instruction (.jumpIfNonZero r (← resolve label))
  | .jumpIf c, [.register r, rhs, .reference label] => do
    -- The operand is read first, so a bad one is reported even if the label is unknown.
    let rhs ← rightHand m rhs
    return instruction (.jumpIf c r rhs (← resolve label))
  | .directive s, [.number value] => return side s (← sideLength value)
  | _, _ => throw (.invalidOperands m)

end Statement

/-- The statement of an instruction line, where the mnemonic is still a word. -/
def Statement.ofWords (word : String) (operands : List Token)
    (resolve : String → Except Cause UInt16) : Except Cause Statement :=
  match Mnemonic.ofWord? word with
  | some m => parse m operands resolve
  | none => throw .unknownMnemonic

end TurtleVM.Assembly
