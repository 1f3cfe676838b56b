import TurtleVM.Machine.Run
import TurtleVM.Text.Literal

/-! # The command line

A command line names one of four commands and gives it a file to read, a file to write where the
command writes one, and options in any order. This file reads the arguments; what the commands do is
told in `TurtleVM.CommandLine.Response`.

Arguments are read from left to right, and the value of an option or file is only looked at when
the next argument has been recognised. So an unknown argument is blamed before a bad value that
stands right before it.
-/

namespace TurtleVM.CommandLine

/-! ### Commands -/

/-- How to run a program. -/
structure RunOptions where
  maxSteps : UInt64
  /-- Show every executed instruction. -/
  trace : Bool
  deriving DecidableEq

/-- A complete command. -/
inductive Command where
  /-- Write the image of a source. -/
  | assemble (source output : String)
  /-- Run an image and write its drawing. A bare image has no header. -/
  | run (image output : String) (bare : Bool) (options : RunOptions)
  /-- Run a source and write its drawing. -/
  | draw (source output : String) (options : RunOptions)
  /-- List the instructions of an image. -/
  | disassemble (image : String) (bare : Bool)
  deriving DecidableEq

/-- Why a command line is not a command. -/
inductive UsageError where
  | unknownArgument
  /-- A file that the command needs is not given. -/
  | missingArgument
  /-- An option or a file is given without a value, or with an empty one for a file. -/
  | missingValue
  /-- A flag is given a value. -/
  | unexpectedValue
  /-- The value of an option is not a number that it can take. -/
  | invalidNumber
  | repeatedArgument
  | unknownCommand
  /-- Help is asked for. -/
  | helpAsked
  /-- There are no arguments. -/
  | nothingAsked
  deriving DecidableEq

/-! ### What each command accepts -/

/-- The name of a command. -/
inductive Verb where
  | assemble | run | draw | disassemble
  deriving DecidableEq

/-- What a value can be given for. -/
inductive Slot where
  /-- The file to read, the only one without an option name. -/
  | input
  | output | maxSteps
  deriving DecidableEq

/-- What is given without a value. -/
inductive Flag where
  | trace | bare | help
  deriving DecidableEq

/-- What an option stands for. -/
inductive Parameter where
  | slot (s : Slot)
  | flag (f : Flag)
  deriving DecidableEq

/-- The command that a word names. -/
def Verb.ofWord? (word : String) : Option Verb :=
  [("assemble", assemble), ("run", run), ("draw", draw), ("disasm", disassemble)].lookup word

/-- Whether the parameter can be given to the command. -/
def Verb.accepts (v : Verb) : Parameter → Bool
  | .slot .input | .flag .help => true
  | .slot .output => v != disassemble
  | .slot .maxSteps | .flag .trace => v == run || v == draw
  | .flag .bare => v == run || v == disassemble

namespace Parameter

/-- The parameter with a long option name. -/
def ofLongName? (name : List Char) : Option Parameter :=
  [("output", slot .output), ("max-steps", slot .maxSteps), ("trace", flag .trace),
    ("no-header", flag .bare), ("help", flag .help)].lookup (String.ofList name)

/-- The parameter with a one-letter option name. -/
def ofShortName? : Char → Option Parameter
  | 'o' => some (slot .output)
  | 'h' => some (flag .help)
  | _ => none

end Parameter

/-! ### Reading the arguments of a command -/

/-- What has been read of the arguments of a command. -/
structure Given where
  input : Option String
  output : Option String
  maxSteps : Option UInt64
  trace : Bool
  bare : Bool
  /-- The last slot that was named, with its value if that has been read, not looked at yet. -/
  pending : Option (Slot × Option String)

namespace Given

/-- Nothing has been read. -/
def nothing : Given := ⟨none, none, none, false, false, none⟩

/-- The number of steps that a value gives: decimal digits, perhaps after a plus. -/
def steps? (value : String) : Option UInt64 :=
  let digits := match value.toList with
    | '+' :: digits => digits
    | digits => digits
  ((Text.Literal.magnitude? 10 digits).filter (· ≤ greatestLimit.toNat)).map UInt64.ofNat

/-- A file name, which must not be empty. -/
def fileName (value : String) : Except UsageError String :=
  if value = "" then .error .missingValue else .ok value

/-- Puts a value into a slot, which must be empty. -/
def fill (slot : Slot) (value : String) (g : Given) : Except UsageError Given :=
  match slot with
  | .input => do return { g with input := some (← fileName value) }
  | .output =>
    if g.output.isSome then .error .repeatedArgument
    else do return { g with output := some (← fileName value) }
  | .maxSteps =>
    if g.maxSteps.isSome then .error .repeatedArgument
    else match steps? value with
      | some steps => .ok { g with maxSteps := some steps }
      | none => .error .invalidNumber

/-- Looks at the pending slot and its value. -/
def settle (g : Given) : Except UsageError Given :=
  match g.pending with
  | none => .ok g
  | some (_, none) => .error .missingValue
  | some (slot, some value) => { g with pending := none }.fill slot value

/-- Raises a flag, once at most. -/
def raise (f : Flag) (g : Given) : Except UsageError Given :=
  match f with
  | .trace => if g.trace then .error .repeatedArgument else .ok { g with trace := true }
  | .bare => if g.bare then .error .repeatedArgument else .ok { g with bare := true }
  | .help => .error .helpAsked

/-- Reads an option, perhaps with a value in the same argument. -/
def option (p : Parameter) (attached : Option String) (g : Given) : Except UsageError Given :=
  match p, attached with
  | .slot slot, some value => do (← g.settle).fill slot value
  | .slot slot, none => do return { (← g.settle) with pending := some (slot, none) }
  | .flag _, some _ => .error .unexpectedValue
  | .flag f, none => do (← g.settle).raise f

/-- Whether the file to read has been given. -/
def hasInput (g : Given) : Bool :=
  g.input.isSome || (g.pending.map Prod.fst == some .input)

/-- Reads an argument that stands for itself. -/
def plain (argument : String) (g : Given) : Except UsageError Given := do
  if g.hasInput then throw .unknownArgument
  let g ← g.settle
  return { g with pending := some (.input, some argument) }

/-- Reads an argument that does not look like an option: the value of the option before it, or else
the file to read. -/
def valueOrPlain (argument : String) (g : Given) : Except UsageError Given :=
  match g.pending with
  | some (slot, none) => .ok { g with pending := some (slot, some argument) }
  | _ => g.plain argument

end Given

/-- A long option: its name and what follows the first equals sign. -/
def splitLong (text : List Char) : List Char × Option String :=
  match text.dropWhile (· != '=') with
  | [] => (text, none)
  | _ :: value => (text.takeWhile (· != '='), some (String.ofList value))

/-- The value written right behind a one-letter option, where one equals sign is passed over. -/
def attachedToShort : List Char → Option String
  | [] => none
  | '=' :: value => some (String.ofList value)
  | value => some (String.ofList value)

/-- The parameter, if the command accepts it. -/
def Verb.accepted (v : Verb) (p? : Option Parameter) : Except UsageError Parameter :=
  match p?.filter v.accepts with
  | some p => .ok p
  | none => .error .unknownArgument

/-- Reads an argument that comes before any `--`. -/
def Verb.read (v : Verb) (argument : String) (g : Given) : Except UsageError Given :=
  match argument.toList with
  | '-' :: '-' :: text => do
    let (name, attached) := splitLong text
    let p ← v.accepted (Parameter.ofLongName? name)
    g.option p attached
  | '-' :: letter :: rest => do
    match ← v.accepted (Parameter.ofShortName? letter) with
    | .slot slot => g.option (.slot slot) (attachedToShort rest)
    | .flag f => g.option (.flag f) none
  | _ => g.valueOrPlain argument

/-- Reads all arguments of a command. Behind `--` every argument stands for itself. -/
def Verb.readAll (v : Verb) : (plainOnly : Bool) → List String → Given → Except UsageError Given
  | _, [], g => g.settle
  | true, argument :: arguments, g => do v.readAll true arguments (← g.plain argument)
  | false, argument :: arguments, g =>
    if argument = "--" then v.readAll true arguments g
    else do v.readAll false arguments (← v.read argument g)

/-- The value of a parameter that must be given. -/
def required (value : Option String) : Except UsageError String :=
  match value with
  | some value => .ok value
  | none => .error .missingArgument

/-- The command of a verb and its arguments. -/
def Verb.command (v : Verb) (arguments : List String) : Except UsageError Command := do
  let g ← v.readAll false arguments .nothing
  let options : RunOptions := ⟨g.maxSteps.getD standardLimit, g.trace⟩
  let input ← required g.input
  match v with
  | .assemble => return .assemble input (← required g.output)
  | .run => return .run input (← required g.output) g.bare options
  | .draw => return .draw input (← required g.output) options
  | .disassemble => return .disassemble input g.bare

/-! ### Reading a whole command line -/

/-- What a help request answers: help for a command, or for help itself, but for nothing else. -/
def help : List String → UsageError
  | [] => .helpAsked
  | word :: words =>
    if words = [] ∧ ((Verb.ofWord? word).isSome ∨ word = "help") then .helpAsked
    else .unknownCommand

/-- What is wrong with arguments behind a `--` that comes before the command. -/
def misplaced : List String → UsageError
  | [] => .nothingAsked
  | word :: _ =>
    if (Verb.ofWord? word).isSome ∨ word = "help" then .unknownArgument else .unknownCommand

/-- What is wrong with a first argument that names no command. -/
def notACommand (argument : String) : UsageError :=
  match argument.toList with
  | '-' :: '-' :: text =>
    match splitLong text with
    | (name, attached) =>
      if name ≠ "help".toList then .unknownArgument
      else if attached.isSome then .unexpectedValue
      else .helpAsked
  | '-' :: 'h' :: _ => .helpAsked
  | '-' :: _ :: _ => .unknownArgument
  | _ => .unknownCommand

/-- The command that the arguments ask for. -/
def parse : List String → Except UsageError Command
  | [] => .error .nothingAsked
  | word :: arguments =>
    match Verb.ofWord? word with
    | some v => v.command arguments
    | none =>
      if word = "help" then .error (help arguments)
      else if word = "--" then .error (misplaced arguments)
      else .error (notACommand word)

end TurtleVM.CommandLine
