import TurtleVM.Assembly.Mnemonic
import TurtleVM.Image.Writer

/-! # What can go wrong in assembly

An error has a cause and, unless the output buffer has no room for the header, the number of the
line it was found on.
-/

namespace TurtleVM.Assembly

/-- What is wrong with a line. -/
inductive Cause where
  /-- A line has more tokens than a line can hold. -/
  | tooManyTokens
  /-- A label has no name, or a colon in its name. -/
  | malformedLabel
  | unknownMnemonic
  /-- The operands have none of the shapes of the mnemonic. -/
  | invalidOperands (mnemonic : Mnemonic)
  /-- A word that starts like a number is none. -/
  | invalidNumber
  /-- An immediate is not an unsigned 16-bit word. -/
  | immediateOutOfRange (value : Int)
  /-- A side of the canvas is not between 1 and 65535. -/
  | sideOutOfRange (value : Int)
  /-- A side of the canvas was set before. -/
  | repeatedDirective (side : Side)
  | nameTooLong
  | repeatedLabel (name : String)
  | unknownLabel (name : String)
  /-- There are more labels than the table can hold. -/
  | labelTableFull
  /-- The code would grow to `length` bytes, which offsets cannot reach. -/
  | codeTooLong (length : Nat)
  /-- The image cannot be written. -/
  | write (error : Image.WriteError)
  deriving DecidableEq

/-- What to tell about a cause. -/
def Cause.message : Cause → String
  | tooManyTokens => "too many tokens"
  | malformedLabel => "malformed label"
  | unknownMnemonic => "unknown mnemonic"
  | invalidOperands mnemonic => "invalid operands for " ++ mnemonic.text
  | invalidNumber => "invalid number"
  | immediateOutOfRange value => "immediate " ++ toString value ++ " does not fit in 16 bits"
  | sideOutOfRange value => "canvas dimension " ++ toString value ++ " is out of range"
  | repeatedDirective side => side.text ++ " given more than once"
  | nameTooLong => "name is longer than 32 bytes"
  | repeatedLabel name => "label `" ++ name ++ "` is already defined"
  | unknownLabel name => "label `" ++ name ++ "` is never defined"
  | labelTableFull => "label table is full"
  | codeTooLong length => "instruction stream of " ++ toString length ++ " bytes is too long"
  | write error => error.message

/-- A cause and the line it was found on. -/
structure Error where
  line : Option Nat
  cause : Cause
  deriving DecidableEq

namespace Error

/-- An error on a line. -/
def onLine (line : Nat) (cause : Cause) : Error := ⟨some line, cause⟩

/-- What to tell about an error. -/
def message (e : Error) : String :=
  match e.line with
  | some line => "line " ++ toString line ++ ": " ++ e.cause.message
  | none => e.cause.message

end Error

end TurtleVM.Assembly
