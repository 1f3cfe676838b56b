import TurtleVM.Instruction

/-! # Mnemonics

A mnemonic names what a line of assembly asks for: an operation, or a side of the canvas. Case does
not matter, and `FWD` is a second name for `MOV`.
-/

namespace TurtleVM.Assembly

/-- A side of the canvas that a directive sets. -/
inductive Side where
  | width | height
  deriving DecidableEq

/-- Name of the directive that sets the side. -/
def Side.text : Side → String
  | width => "WIDTH" | height => "HEIGHT"

/-- What a line of assembly asks for. One mnemonic covers all shapes of its operands. -/
inductive Mnemonic where
  | draw | move | halt | increment | decrement
  | arithmetic (f : Arithmetic)
  | jumpIfNonZero
  | jumpIf (c : Comparison)
  | directive (side : Side)
  deriving DecidableEq

namespace Mnemonic

/-- Every name with its mnemonic. -/
def names : List (String × Mnemonic) :=
  [("DRW", draw), ("MOV", move), ("FWD", move), ("STO", arithmetic .store), ("INC", increment),
    ("DEC", decrement), ("ADD", arithmetic .add), ("SUB", arithmetic .subtract),
    ("MUL", arithmetic .multiply), ("DIV", arithmetic .divide), ("JNZ", jumpIfNonZero),
    ("JEQ", jumpIf .equal), ("JNE", jumpIf .notEqual), ("JGT", jumpIf .greater),
    ("JLT", jumpIf .less), ("HLT", halt), ("WIDTH", directive .width),
    ("HEIGHT", directive .height)]

/-- The mnemonic that a word names, whatever the case of its ASCII letters. -/
def ofWord? (word : String) : Option Mnemonic := names.lookup (word.map Char.toUpper)

/-- The name under which a mnemonic is reported. -/
def text : Mnemonic → String
  | draw => "DRW"
  | move => "MOV"
  | halt => "HLT"
  | increment => "INC"
  | decrement => "DEC"
  | arithmetic f => (Operation.arithmetic f).mnemonic
  | jumpIfNonZero => "JNZ"
  | jumpIf c => (Operation.jumpIf c).mnemonic
  | directive side => side.text

/-- The reported name is one of the names. -/
theorem lookup_text (m : Mnemonic) : names.lookup m.text = some m := by
  cases m with
  | arithmetic f => cases f <;> rfl
  | jumpIf c => cases c <;> rfl
  | directive side => cases side <;> rfl
  | _ => rfl

end Mnemonic

end TurtleVM.Assembly
