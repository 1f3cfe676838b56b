import TurtleVM.CommandLine.Directory

/-! # The program

Reads the command line, lets the command respond to its file, and does what the response says.
-/

namespace TurtleVM.CommandLine

/-- The number of an error about a file. Some calls of the operating system give it negated. -/
def numberOf? (e : IO.Error) : Option Nat :=
  match e with
  | .noFileOrDirectory _ code _ | .inappropriateType _ code _ | .invalidArgument _ code _ =>
    some (min code.toNat (0 - code).toNat)
  | _ => none

/-- The reason why the operating system refused a file. -/
def reasonOf (e : IO.Error) : String :=
  match (numberOf? e).bind FileError.ofNumber? with
  | some reason => reason.message
  | none => e.toString

/-- How the program is used. -/
def usage : String :=
  "usage: turtlevm assemble SOURCE -o FILE\n" ++
  "       turtlevm run IMAGE -o FILE [--max-steps N] [--trace] [--no-header]\n" ++
  "       turtlevm draw SOURCE -o FILE [--max-steps N] [--trace]\n" ++
  "       turtlevm disasm IMAGE [--no-header]\n"

/-- Does what a response says. -/
def Response.act (r : Response) : IO UInt32 := do
  IO.print r.output
  IO.eprint r.notes
  try
    if let some (name, bytes) := r.file then
      try IO.FS.writeBinFile name ⟨bytes⟩
      catch e => throw (IO.userError (writeFailure name (reasonOf e)))
    IO.eprint r.closing
    return if r.success then 0 else 1
  catch e =>
    IO.eprint (Response.errorText e.toString)
    return 1

/-- Runs the command line. -/
def runProgram (arguments : List String) : IO UInt32 := do
  match parse arguments with
  | .error e =>
    if e.exitCode = 0 then IO.print usage else IO.eprint usage
    return UInt32.ofNat e.exitCode
  | .ok command =>
    let contents ← (IO.FS.readBinFile command.input).toBaseIO
    match contents with
    | .ok bytes => (command.respond bytes.data).act
    | .error e => (Response.failure (readFailure command.input (reasonOf e))).act

end TurtleVM.CommandLine

/-- The program. -/
def main (arguments : List String) : IO UInt32 := TurtleVM.CommandLine.runProgram arguments
