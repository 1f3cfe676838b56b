import TurtleVM.Assembly.Token
import TurtleVM.Text.Blank

/-! # Lines of assembly

A line holds at most eight tokens: label definitions, then perhaps a mnemonic with its operands. A
comment starts at the first `;` or `#` and runs to the end of the line.

`Line.lex` reads one line of text, and `sourceLines` numbers the lines of a whole source from 1.
-/

namespace TurtleVM.Assembly

/-- The tokens of a line with its number. -/
structure Line where
  number : Nat
  tokens : List Token
  deriving DecidableEq

/-- How many tokens a line can hold. -/
def maxTokens : Nat := 8

namespace Line

/-! ### Reading a line -/

/-- The text before the first comment mark. -/
def withoutComment (text : List Char) : List Char := text.takeWhile fun c => c != ';' && c != '#'

/-- The tokens of words, of which at most `room` fit. The flag tells whether the mnemonic has been
read. A word that is no token is reported even where it would not fit. -/
def lexWords : (room : Nat) → (afterMnemonic : Bool) → List (List Char) →
    Except Cause (List Token)
  | _, _, [] => return []
  | room, afterMnemonic, word :: words => do
    let token ← if afterMnemonic then Token.ofOperandWord word else Token.ofLeadingWord word
    -- Only a word that is a token needs room.
    match room with
    | 0 => throw .tooManyTokens
    | room + 1 => return token :: (← lexWords room (afterMnemonic || token.isMnemonic) words)

/-- The line with the given number and text. -/
def lex (number : Nat) (text : List Char) : Except Error Line :=
  match lexWords maxTokens false (Text.words (withoutComment text)) with
  | .ok tokens => .ok ⟨number, tokens⟩
  | .error cause => .error (.onLine number cause)

/-! ### Parts of a line -/

/-- The names of all labels that the line binds, in order. -/
def labels (line : Line) : List String := line.tokens.filterMap Token.definedName?

/-- The mnemonic word and its operands. The first token that binds no label must be the mnemonic;
all tokens after it are its operands. -/
def instruction? (line : Line) : Option (String × List Token) :=
  match line.tokens.dropWhile Token.isDefinition with
  | .mnemonic word :: operands => some (word, operands)
  | _ => none

end Line

/-- The lines of a source text with their numbers, counted from 1. -/
def sourceLines (source : List Char) : List (List Char × Nat) := (Text.lines source).zipIdx 1

end TurtleVM.Assembly
