import TurtleVM.Assembly
import TurtleVM.Bytecode.Listing
import TurtleVM.Bytecode.Verified
import TurtleVM.Canvas.PortableBitmap
import TurtleVM.CommandLine.Arguments
import TurtleVM.Machine.Transcript

/-! # What commands do

Every command reads one file and then answers with a response: text to show, perhaps a file to
write, and how the command ends. Nothing here touches a file; a response only says what is to be
done.

The file of a run is written however the run ended. The last words of a command come after its file
is written, and are replaced by an error if it cannot be.
-/

namespace TurtleVM.CommandLine

/-- What a command wants done once it has read its file. -/
structure Response where
  /-- Text for the standard output. -/
  output : String
  /-- Text for the standard error before the file is written. -/
  notes : String
  /-- A file to write. -/
  file : Option (String × Bytes)
  /-- Text for the standard error at the end. -/
  closing : String
  /-- Whether the command has succeeded. -/
  success : Bool

namespace Response

/-- The last words of a command that fails. -/
def errorText (message : String) : String := "error: " ++ message ++ "\n"

/-- Nothing is done but to report an error. -/
def failure (message : String) : Response := ⟨"", "", none, errorText message, false⟩

end Response

/-! ### Reading programs -/

/-- What to tell when a file cannot be read for a reason. -/
def readFailure (name reason : String) : String := "Read " ++ name ++ ": " ++ reason

/-- What to tell when a file cannot be written for a reason. -/
def writeFailure (name reason : String) : String := "Write " ++ name ++ ": " ++ reason

/-- The image of a source file with the given bytes. -/
def assembleFile (name : String) (contents : Bytes) : Except String Bytes :=
  match String.fromUTF8? ⟨contents⟩ with
  | none => .error (readFailure name "stream did not contain valid UTF-8")
  | some source =>
    (Assembly.imageOfSource source.toList).mapError fun e => name ++ ": " ++ e.message

/-- The program in an image file with the given bytes. -/
def loadFile (name : String) (bare : Bool) (contents : Bytes) : Except String Image :=
  if bare then .ok (.bare contents)
  else (Image.load contents).mapError fun e => name ++ ": " ++ e.message

/-! ### Commands -/

/-- The response to `assemble`. -/
def respondAssemble (source output : String) (contents : Bytes) : Response :=
  match assembleFile source contents with
  | .error message => .failure message
  | .ok image =>
    { output := ""
      notes := ""
      file := some (output, image)
      closing := "wrote " ++ toString (image.size - CanvasSize.headerLength) ++
        " bytes of code to " ++ output ++ "\n"
      success := true }

/-- The last words about a run, and whether the program ended by itself. -/
def closingOfRun (outcome : Outcome) (canvas : Canvas) : String × Bool :=
  match outcome with
  | .ok halted =>
    ("halted at " ++ Text.hexadecimal 4 halted.pc ++ " after " ++ toString halted.steps.toNat ++
      " steps, " ++ toString canvas.count ++ " pixels set on " ++
      toString canvas.size.width.toNat ++ "x" ++ toString canvas.size.height.toNat ++ "\n", true)
  | .error fault =>
    (Response.errorText ("fault at " ++ Text.hexadecimal 4 fault.pc ++ ": " ++
      fault.trap.message ++ "\nregisters: " ++ fault.registers.text), false)

/-- Runs a machine as told, and gives its transcript as well, empty unless it is asked for. -/
def runAsTold (options : RunOptions) (m : Machine) : Outcome × Machine × String :=
  if options.trace then
    let (outcome, m, transcript) :=
      m.runWith (Transcript.record appendText) (Transcript.start "") options.maxSteps
    (outcome, m, transcript.sink)
  else
    let (outcome, m) := m.run options.maxSteps
    (outcome, m, "")

/-- The response to running an image. -/
def respondRun (image : Image) (output : String) (options : RunOptions) : Response :=
  match Machine.load image (Array.replicate image.size.byteCount 0) with
  | .error e => .failure e.message
  | .ok m =>
    let (outcome, m, transcript) := runAsTold options m
    let (closing, success) := closingOfRun outcome m.scene.canvas
    { output := ""
      notes := transcript
      file := some (output, m.scene.canvas.portableBitmap)
      closing
      success }

/-- The response to `disasm`. -/
def respondDisassemble (name : String) (image : Image) : Response :=
  let listing := Bytecode.listing image.header image.code
  match Bytecode.verify image.code with
  | .ok _ => ⟨listing, "", none, "", true⟩
  | .error defect =>
    ⟨listing, "", none, Response.errorText (name ++ ": " ++ defect.message), false⟩

namespace Command

/-- The file that a command reads. -/
def input : Command → String
  | assemble source _ | draw source _ _ => source
  | run image _ _ _ | disassemble image _ => image

/-- The response to a command whose file has the given bytes. -/
def respond (c : Command) (contents : Bytes) : Response :=
  match c with
  | assemble source output => respondAssemble source output contents
  | run image output bare options =>
    match loadFile image bare contents with
    | .error message => .failure message
    | .ok program => respondRun program output options
  | draw source output options =>
    match assembleFile source contents with
    | .error message => .failure message
    | .ok bytes =>
      match Image.load bytes with
      | .error e => .failure e.message
      | .ok program => respondRun program output options
  | disassemble image bare =>
    match loadFile image bare contents with
    | .error message => .failure message
    | .ok program => respondDisassemble image program

end Command

end TurtleVM.CommandLine
