import TurtleVM.Assembly.Error
import TurtleVM.Text.Literal

/-! # Tokens

The words of a line are told apart by how they look and by whether the mnemonic has been read.
Before it, a word that ends in a colon defines a label, and any other word is the mnemonic. After
it, every word is an operand: a colon at the end makes it a label, one letter from `A` to `H` a
register, a digit or minus at the start a number, and what remains is a label.
-/

namespace TurtleVM.Assembly

/-- A word of assembly. -/
inductive Token where
  /-- Binds a label to the place where it stands. -/
  | definition (name : String)
  | mnemonic (word : String)
  | register (r : Register)
  | number (value : Int)
  /-- Names the place that a label is bound to. -/
  | reference (name : String)
  deriving DecidableEq

namespace Token

/-- The name before the colon that ends a word. -/
def beforeColon? (word : List Char) : Option (List Char) :=
  if word.getLast? = some ':' then some word.dropLast else none

/-- A label's name has at least one character and no colon. -/
def labelName (name : List Char) : Except Cause String :=
  if name = [] ∨ ':' ∈ name then .error .malformedLabel else .ok (String.ofList name)

/-- A word looks like a number if it starts with a digit or a minus. -/
def looksNumeric (word : List Char) : Bool :=
  word.head?.any fun c => c.isDigit || c == '-'

/-- The token of a word up to the mnemonic. -/
def ofLeadingWord (word : List Char) : Except Cause Token :=
  match beforeColon? word with
  | some name => return .definition (← labelName name)
  | none => return .mnemonic (String.ofList word)

/-- The token of a word after the mnemonic. -/
def ofOperandWord (word : List Char) : Except Cause Token :=
  match beforeColon? word with
  | some name => return .reference (← labelName name)
  | none =>
    match Register.ofName? word with
    | some r => return .register r
    | none =>
      if looksNumeric word then
        match Text.Literal.parse? word with
        | some value => return .number value
        | none => throw .invalidNumber
      else return .reference (← labelName word)

/-- Whether operands follow the token. -/
def isMnemonic : Token → Bool
  | mnemonic _ => true
  | _ => false

/-- Whether the token binds a label. -/
def isDefinition : Token → Bool
  | definition _ => true
  | _ => false

/-- The label that a token binds. -/
def definedName? : Token → Option String
  | definition name => some name
  | _ => none

end Token

end TurtleVM.Assembly
