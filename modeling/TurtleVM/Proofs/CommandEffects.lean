import TurtleVM.Proofs.AssembledCode
import TurtleVM.Proofs.BoundedRuns
import TurtleVM.Proofs.DrawingPath
import TurtleVM.Proofs.FilePlaces
import TurtleVM.Proofs.SourceErrors

/-! # What commands leave behind

A command depends on what the file that it reads stands for: a text that assembles, a program that
loads, or neither. `Command.HasEffects` says in these terms what it shows, which file it writes and
whether it succeeds. A run writes its drawing however it ended, and a listing is shown in full
before its code is judged.

Carried out in a directory, a command does this and changes no other file
(`commands_have_only_their_effects`).
-/

namespace TurtleVM

/-! ### Assembled images -/

namespace Assembly

variable {source : List Char} {image : Bytes}

/-- The image of a source is the written front of a buffer with ample room. -/
theorem imageOfSource_eq_ok_iff : imageOfSource source = .ok image ↔
    ∃ d written, assembleSource standardCapacity source
        (Array.replicate (CanvasSize.headerLength + Image.maxCodeLength) 0) = (.ok d, written) ∧
      written.extract 0 d.length = image := by
  rw [imageOfSource]
  rcases assembleSource standardCapacity source
    (Array.replicate (CanvasSize.headerLength + Image.maxCodeLength) 0) with ⟨_ | d, written⟩
  · simp [Except.map]
  · simp [Except.map]

/-- What is written into a buffer of any length is the image, since the ample buffer has room for
whatever fits another. -/
theorem imageOfSource_of_assembleSource {buffer written : Bytes} {d : Image.Descriptor}
    (h : assembleSource standardCapacity source buffer = (.ok d, written)) :
    imageOfSource source = .ok (written.extract 0 d.length) := by
  obtain ⟨lines, hread, hlines⟩ := assembleSource_eq_ok_iff.mp h
  obtain ⟨hassembles, -, -⟩ := assembles_of_assemble hlines
  have hample : Assembles standardCapacity lines
      (Array.replicate (CanvasSize.headerLength + Image.maxCodeLength) (0 : UInt8)).size := by
    refine ⟨hassembles.toLaysOut, hassembles.labels_defined, ?_⟩
    rw [Array.size_replicate]
    exact Nat.add_le_add_left hassembles.code_short 4
  obtain ⟨d', written', hlines'⟩ := exists_assemble_eq_ok hample
  have hsame : written'.extract 0 d'.length = written.extract 0 d.length :=
    Array.toList_inj.mp ((extract_of_assemble hlines').trans (extract_of_assemble hlines).symm)
  exact imageOfSource_eq_ok_iff.mpr
    ⟨d', written', assembleSource_eq_ok_iff.mpr ⟨lines, hread, hlines'⟩, hsame⟩

/-- The image of a source can be loaded, and its code is verified. -/
theorem exists_load_of_imageOfSource (h : imageOfSource source = .ok image) :
    ∃ program n, Image.load image = .ok program ∧ Bytecode.verify program.code = .ok n := by
  obtain ⟨d, written, hassemble, rfl⟩ := imageOfSource_eq_ok_iff.mp h
  obtain ⟨lines, -, hlines⟩ := assembleSource_eq_ok_iff.mp hassemble
  obtain ⟨hassembles, -, -⟩ := assembles_of_assemble hlines
  exact ⟨_, _, load_of_assemble hlines,
    Bytecode.verify_of_jumpsLand List.toList_toArray (jumpsLand_program hassembles.code_short)⟩

end Assembly

/-! ### Runs of a loaded program -/

/-- A loaded program that runs on a blank canvas up to a limit ends in this way, and this canvas is
left. -/
def Image.RunsTo (program : Image) (limit : UInt64) (outcome : Outcome) (canvas : Canvas) : Prop :=
  ∃ m, Machine.load program (Array.replicate program.size.byteCount 0) = .ok m ∧
    (m.run limit).1 = outcome ∧ (m.run limit).2.scene.canvas = canvas

/-- A program can always be loaded with as much room as its canvas needs. -/
theorem Image.exists_load_replicate (program : Image) :
    ∃ m, Machine.load program (Array.replicate program.size.byteCount 0) = .ok m ∧
      m.IsFresh program (Array.replicate program.size.byteCount 0) :=
  Machine.exists_isFresh program Array.size_replicate.ge

theorem Image.exists_runsTo (program : Image) (limit : UInt64) :
    ∃ outcome canvas, program.RunsTo limit outcome canvas := by
  obtain ⟨m, hload, -⟩ := program.exists_load_replicate
  exact ⟨_, _, m, hload, rfl, rfl⟩

namespace CommandLine

/-! ### What files stand for -/

/-- The bytes are a text that assembles to an image. -/
def AssemblesTo (contents image : Bytes) : Prop :=
  ∃ text, String.fromUTF8? ⟨contents⟩ = some text ∧
    Assembly.imageOfSource text.toList = .ok image

/-- The bytes load as a program, with a header unless they are taken as bare code. -/
inductive LoadsAs (contents : Bytes) : (bare : Bool) → Image → Prop where
  | bare : LoadsAs contents true (.bare contents)
  | headed {program : Image} (h : Image.load contents = .ok program) :
      LoadsAs contents false program

theorem assembleFile_eq_ok_iff {name : String} {contents image : Bytes} :
    assembleFile name contents = .ok image ↔ AssemblesTo contents image := by
  unfold assembleFile AssemblesTo
  cases String.fromUTF8? ⟨contents⟩ with
  | none => simp
  | some text => simp

theorem loadFile_eq_ok_iff {name : String} {bare : Bool} {contents : Bytes} {program : Image} :
    loadFile name bare contents = .ok program ↔ LoadsAs contents bare program := by
  unfold loadFile
  cases bare with
  | true =>
    constructor
    · intro h
      obtain rfl : Image.bare contents = program := by simpa using h
      exact .bare
    · intro h
      cases h
      rfl
  | false =>
    simp only [Bool.false_eq_true, if_false, mapError_eq_ok_iff]
    constructor
    · exact .headed
    · intro h
      cases h with
      | headed h => exact h

namespace Directory

/-- The file at a path is a text that assembles to an image. -/
def Assembles (d : Directory) (source : String) (image : Bytes) : Prop :=
  ∃ contents, d.read source = .ok contents ∧ AssemblesTo contents image

/-- The file at a path loads as a program. -/
def Loads (d : Directory) (image : String) (bare : Bool) (program : Image) : Prop :=
  ∃ contents, d.read image = .ok contents ∧ LoadsAs contents bare program

end Directory

/-- Assembly makes images that load and whose code is verified. -/
theorem AssemblesTo.exists_load {contents image : Bytes} (h : AssemblesTo contents image) :
    ∃ program n, Image.load image = .ok program ∧ Bytecode.verify program.code = .ok n := by
  obtain ⟨text, -, himage⟩ := h
  exact Assembly.exists_load_of_imageOfSource himage

theorem Directory.Assembles.exists_load {d : Directory} {source : String} {image : Bytes}
    (h : d.Assembles source image) :
    ∃ program n, Image.load image = .ok program ∧ Bytecode.verify program.code = .ok n := by
  obtain ⟨contents, -, himage⟩ := h
  exact himage.exists_load

/-! ### Effects -/

/-- What a command shows on the standard output in a directory, which bytes it writes to which path,
and whether it succeeds. -/
inductive Command.HasEffects (d : Directory) :
    Command → (output : String) → (file : Option (String × Bytes)) → (success : Bool) → Prop where
  | assembled {source output : String} {image : Bytes} (h : d.Assembles source image) :
      HasEffects d (.assemble source output) "" (some (output, image)) true
  | notAssembled {source output : String} (h : ∀ image, ¬ d.Assembles source image) :
      HasEffects d (.assemble source output) "" none false
  | ran {image output : String} {bare : Bool} {options : RunOptions} {program : Image}
      {outcome : Outcome} {canvas : Canvas} (hloads : d.Loads image bare program)
      (hruns : program.RunsTo options.maxSteps outcome canvas) :
      HasEffects d (.run image output bare options) ""
        (some (output, canvas.portableBitmap)) outcome.isOk
  | notLoaded {image output : String} {bare : Bool} {options : RunOptions}
      (h : ∀ program, ¬ d.Loads image bare program) :
      HasEffects d (.run image output bare options) "" none false
  | drawn {source output : String} {options : RunOptions} {image : Bytes} {program : Image}
      {outcome : Outcome} {canvas : Canvas} (hassembles : d.Assembles source image)
      (hload : Image.load image = .ok program)
      (hruns : program.RunsTo options.maxSteps outcome canvas) :
      HasEffects d (.draw source output options) ""
        (some (output, canvas.portableBitmap)) outcome.isOk
  | notDrawn {source output : String} {options : RunOptions}
      (h : ∀ image, ¬ d.Assembles source image) :
      HasEffects d (.draw source output options) "" none false
  | listed {image : String} {bare : Bool} {program : Image} (h : d.Loads image bare program) :
      HasEffects d (.disassemble image bare) (Bytecode.listing program.header program.code) none
        (Bytecode.verify program.code).isOk
  | notListed {image : String} {bare : Bool} (h : ∀ program, ¬ d.Loads image bare program) :
      HasEffects d (.disassemble image bare) "" none false

/-- A directory after a file has been written, or after none has been. -/
structure Directory.IsAfter (d' d : Directory) (file : Option (String × Bytes)) : Prop where
  unwritten : file = none → d' = d
  written : ∀ path bytes, file = some (path, bytes) → d.write path bytes = .ok d'
  find?_written : ∀ path bytes name, file = some (path, bytes) → Path.LeadsTo path .working name →
    d'.find? name = some bytes
  find?_other : ∀ name, (∀ path bytes, file = some (path, bytes) →
    ¬ Path.LeadsTo path .working name) → d'.find? name = d.find? name

namespace Directory

variable {d : Directory}

theorem isAfter_none : d.IsAfter d none where
  unwritten _ := rfl
  written _ _ h := by cases h
  find?_written _ _ _ h := by cases h
  find?_other _ _ := rfl

theorem isAfter_put {path name : String} {f : Folder} {bytes : Bytes}
    (hpath : Path.LeadsTo path f name) : (d.put f name bytes).IsAfter d (some (path, bytes)) where
  unwritten h := by cases h
  written := by
    rintro _ _ ⟨⟩
    exact write_eq_ok_iff.mpr ⟨f, name, hpath, rfl⟩
  find?_written := by
    rintro _ _ other ⟨⟩ hother
    obtain ⟨rfl, rfl⟩ := hpath.unique hother
    rw [find?_put, if_pos ⟨rfl, rfl⟩]
  find?_other := by
    intro other hother
    rw [find?_put, if_neg]
    rintro ⟨rfl, rfl⟩
    exact hother path bytes rfl hpath

end Directory

/-- A command that was carried out in a directory has ended with these effects and no others. -/
structure Ending.HasOnly (e : Ending) (d : Directory) (output : String)
    (file : Option (String × Bytes)) (success : Bool) : Prop where
  output : e.output = output
  exitCode : e.exitCode = if success then 0 else 1
  directory : e.directory.IsAfter d file

/-! ### Responses -/

section Responses

variable {c : Command} {d : Directory} {contents : Bytes}

/-- A response whose file can be written is carried out to its last words. -/
theorem Response.exists_carryOut_eq (r : Response) (d : Directory)
    (hwritable : ∀ path bytes, r.file = some (path, bytes) → Path.Writable path) :
    ∃ d' : Directory, d'.IsAfter d r.file ∧
      r.carryOut d = ⟨r.output, r.notes ++ r.closing, exitCode r.success, d'⟩ := by
  cases hfile : r.file with
  | none => exact ⟨d, Directory.isAfter_none, by rw [carryOut, hfile]⟩
  | some file =>
    obtain ⟨path, bytes⟩ := file
    obtain ⟨f, name, hpath⟩ := hwritable path bytes hfile
    have hwrite : d.write path bytes = .ok (d.put f name bytes) :=
      Directory.write_eq_ok_iff.mpr ⟨f, name, hpath, rfl⟩
    exact ⟨_, Directory.isAfter_put hpath, by simp only [carryOut, hfile, hwrite]⟩

theorem Command.carryOut_of_read (h : d.read c.input = .ok contents) :
    c.carryOut d = (c.respond contents).carryOut d := by
  rw [carryOut, h]

/-- A command that finds nothing it can use in its file does nothing and fails. -/
theorem Command.exists_response_of_failure
    (h : ∀ contents, d.read c.input = .ok contents →
      ∃ message, c.respond contents = .failure message) :
    ∃ r : Response, c.carryOut d = r.carryOut d ∧ r.output = "" ∧ r.file = none ∧
      r.success = false := by
  cases hread : d.read c.input with
  | error e =>
    exact ⟨.failure (readFailure c.input e.message), by rw [carryOut, hread], rfl, rfl, rfl⟩
  | ok contents =>
    obtain ⟨message, hrespond⟩ := h contents hread
    exact ⟨.failure message, by rw [carryOut_of_read hread, hrespond], rfl, rfl, rfl⟩

theorem exists_assembleFile_error {source : String} (h : ∀ image, ¬ d.Assembles source image)
    (hread : d.read source = .ok contents) :
    ∃ message, assembleFile source contents = .error message := by
  cases hassemble : assembleFile source contents with
  | error message => exact ⟨message, rfl⟩
  | ok image => exact absurd ⟨contents, hread, assembleFile_eq_ok_iff.mp hassemble⟩ (h image)

theorem exists_loadFile_error {image : String} {bare : Bool}
    (h : ∀ program, ¬ d.Loads image bare program) (hread : d.read image = .ok contents) :
    ∃ message, loadFile image bare contents = .error message := by
  cases hload : loadFile image bare contents with
  | error message => exact ⟨message, rfl⟩
  | ok program => exact absurd ⟨contents, hread, loadFile_eq_ok_iff.mp hload⟩ (h program)

/-! ### Running as told -/

/-- A transcript has no part in the run that it tells. -/
theorem runAsTold_eq (options : RunOptions) (m : Machine) :
    ((runAsTold options m).1, (runAsTold options m).2.1) = m.run options.maxSteps := by
  unfold runAsTold
  split
  · exact Machine.answer_runWith (Transcript.record appendText) (Transcript.start "") _ m
  · rfl

theorem closingOfRun_snd (outcome : Outcome) (canvas : Canvas) :
    (closingOfRun outcome canvas).2 = outcome.isOk := by
  cases outcome <;> rfl

/-- The response to running a program writes the canvas that is left, whatever the outcome. -/
theorem respondRun_of_runsTo {program : Image} {outcome : Outcome} {canvas : Canvas}
    {options : RunOptions} (output : String)
    (h : program.RunsTo options.maxSteps outcome canvas) :
    (respondRun program output options).output = "" ∧
    (respondRun program output options).file = some (output, canvas.portableBitmap) ∧
    (respondRun program output options).success = outcome.isOk := by
  obtain ⟨m, hload, rfl, rfl⟩ := h
  simp only [respondRun, hload, ← runAsTold_eq options m, closingOfRun_snd]
  exact ⟨trivial, trivial, trivial⟩

/-- A listing is shown whether the code is verified or not, and what is wrong is told behind it. -/
theorem respondDisassemble_eq (name : String) (program : Image) :
    respondDisassemble name program =
      { output := Bytecode.listing program.header program.code
        notes := ""
        file := none
        closing := match Bytecode.verify program.code with
          | .ok _ => ""
          | .error defect => Response.errorText (name ++ ": " ++ defect.message)
        success := (Bytecode.verify program.code).isOk } := by
  unfold respondDisassemble
  cases Bytecode.verify program.code with
  | ok n => rfl
  | error defect => rfl

theorem Command.carryOut_of_loads {image : String} {bare : Bool} {program : Image}
    (h : d.Loads image bare program) : (Command.disassemble image bare).carryOut d =
      (respondDisassemble image program).carryOut d := by
  obtain ⟨contents, hread, hprogram⟩ := h
  rw [carryOut_of_read hread]
  simp only [respond, loadFile_eq_ok_iff.mpr hprogram]

end Responses

/-! ### Effects of responses -/

namespace Command

variable {c : Command} {d : Directory} {output : String} {file : Option (String × Bytes)}
variable {success : Bool}

/-- A command responds with its effects. -/
theorem HasEffects.exists_response (h : c.HasEffects d output file success) :
    ∃ r : Response, c.carryOut d = r.carryOut d ∧ r.output = output ∧ r.file = file ∧
      r.success = success := by
  cases h with
  | assembled h =>
    obtain ⟨contents, hread, himage⟩ := h
    refine ⟨_, carryOut_of_read hread, ?_⟩
    simp [respond, respondAssemble, assembleFile_eq_ok_iff.mpr himage]
  | notAssembled h =>
    apply exists_response_of_failure
    intro contents hread
    obtain ⟨message, hmessage⟩ := exists_assembleFile_error h hread
    exact ⟨message, by simp only [respond, respondAssemble, hmessage]⟩
  | ran hloads hruns =>
    obtain ⟨contents, hread, hprogram⟩ := hloads
    refine ⟨_, carryOut_of_read hread, ?_⟩
    simp only [respond, loadFile_eq_ok_iff.mpr hprogram]
    exact respondRun_of_runsTo _ hruns
  | notLoaded h =>
    apply exists_response_of_failure
    intro contents hread
    obtain ⟨message, hmessage⟩ := exists_loadFile_error h hread
    exact ⟨message, by simp only [respond, hmessage]⟩
  | drawn hassembles hload hruns =>
    obtain ⟨contents, hread, himage⟩ := hassembles
    refine ⟨_, carryOut_of_read hread, ?_⟩
    simp only [respond, assembleFile_eq_ok_iff.mpr himage, hload]
    exact respondRun_of_runsTo _ hruns
  | notDrawn h =>
    apply exists_response_of_failure
    intro contents hread
    obtain ⟨message, hmessage⟩ := exists_assembleFile_error h hread
    exact ⟨message, by simp only [respond, hmessage]⟩
  | listed h =>
    refine ⟨_, carryOut_of_loads h, ?_⟩
    rw [respondDisassemble_eq]
    exact ⟨rfl, rfl, rfl⟩
  | notListed h =>
    apply exists_response_of_failure
    intro contents hread
    obtain ⟨message, hmessage⟩ := exists_loadFile_error h hread
    exact ⟨message, by simp only [respond, hmessage]⟩

/-- Every command has effects in every directory. -/
theorem exists_hasEffects (c : Command) (d : Directory) :
    ∃ output file success, c.HasEffects d output file success := by
  cases c with
  | assemble source output =>
    by_cases h : ∃ image, d.Assembles source image
    · obtain ⟨image, himage⟩ := h
      exact ⟨_, _, _, .assembled himage⟩
    · exact ⟨_, _, _, .notAssembled (not_exists.mp h)⟩
  | run image output bare options =>
    by_cases h : ∃ program, d.Loads image bare program
    · obtain ⟨program, hprogram⟩ := h
      obtain ⟨outcome, canvas, hruns⟩ := program.exists_runsTo options.maxSteps
      exact ⟨_, _, _, .ran hprogram hruns⟩
    · exact ⟨_, _, _, .notLoaded (not_exists.mp h)⟩
  | draw source output options =>
    by_cases h : ∃ image, d.Assembles source image
    · -- An image that assembly makes is never refused.
      obtain ⟨image, himage⟩ := h
      obtain ⟨program, -, hload, -⟩ := himage.exists_load
      obtain ⟨outcome, canvas, hruns⟩ := program.exists_runsTo options.maxSteps
      exact ⟨_, _, _, .drawn himage hload hruns⟩
    · exact ⟨_, _, _, .notDrawn (not_exists.mp h)⟩
  | disassemble image bare =>
    by_cases h : ∃ program, d.Loads image bare program
    · obtain ⟨program, hprogram⟩ := h
      exact ⟨_, _, _, .listed hprogram⟩
    · exact ⟨_, _, _, .notListed (not_exists.mp h)⟩

/-- Carried out, a command has its effects. -/
theorem HasEffects.carryOut_hasOnly (h : c.HasEffects d output file success)
    (hwritable : ∀ path bytes, file = some (path, bytes) → Path.Writable path) :
    (c.carryOut d).HasOnly d output file success := by
  obtain ⟨r, hr, rfl, rfl, rfl⟩ := h.exists_response
  obtain ⟨d', hd', hcarryOut⟩ := r.exists_carryOut_eq d hwritable
  rw [hr, hcarryOut]
  exact ⟨rfl, rfl, hd'⟩

end Command

/-- **Commands have only their effects.** Every command has effects in every directory. If the path
of the file that it writes, if any, can be written to, carrying it out ends with just these: it
shows the text, answers 0 if it succeeds and 1 if not, and leaves the directory with the file
written and every other file as it was. What is said after the listing of a program is the first
defect of its code, if there is one. -/
theorem commands_have_only_their_effects (c : Command) (d : Directory) :
    (∃ output file success, c.HasEffects d output file success) ∧
    (∀ output file success, c.HasEffects d output file success →
      (∀ path bytes, file = some (path, bytes) → Path.Writable path) →
      (c.carryOut d).HasOnly d output file success) ∧
    ∀ image bare program, c = .disassemble image bare → d.Loads image bare program →
      (c.carryOut d).errors = match Bytecode.verify program.code with
        | .ok _ => ""
        | .error defect => Response.errorText (image ++ ": " ++ defect.message) := by
  refine ⟨c.exists_hasEffects d, ?_, ?_⟩
  · intro output file success heffects hwritable
    exact heffects.carryOut_hasOnly hwritable
  · rintro image bare program rfl hloads
    rw [Command.carryOut_of_loads hloads, respondDisassemble_eq]
    exact String.empty_append

/-- `DRW`, `MOV`, `DIV A 0` on 4 by 4 pixels. -/
def moveThenDivide : Machine :=
  ⟨#[1, 2, 15, 0, 0, 0], 0, .running, 0,
    ⟨.zero, .centred ⟨4, 4⟩, ⟨⟨4, 4⟩, #[0, 0, 0, 0], by decide⟩⟩⟩

/-- A program that is trapped after it has plotted a point fails, and the point is in the drawing
that is written. -/
theorem commands_have_only_their_effects_of_moveThenDivide :
    ∃ fault canvas, (Image.mk (some ⟨4, 4⟩) moveThenDivide.code).RunsTo 9 (.error fault) canvas ∧
      fault.trap = .divisionByZero ∧
      let image : Bytes := #[4, 0, 4, 0] ++ moveThenDivide.code
      let e := (Command.run "image" "drawing" false ⟨9, true⟩).carryOut ⟨[("image", image)]⟩
      e.output = "" ∧ e.exitCode = 1 ∧
      e.directory.find? "drawing" = some ("P4\n4 4\n".toUTF8.data ++ #[0, 0, 0x10, 0]) ∧
      e.directory.find? "image" = some image := by
  have hmachine : Machine.load ⟨some ⟨4, 4⟩, moveThenDivide.code⟩
      (Array.replicate (CanvasSize.mk 4 4).byteCount 0) = .ok moveThenDivide := rfl
  have hfault : (moveThenDivide.run 9).1 = .error ⟨.divisionByZero, 2, .zero⟩ := rfl
  have hdrawn : (moveThenDivide.run 9).2.scene.canvas.portableBitmap =
      "P4\n4 4\n".toUTF8.data ++ #[0, 0, 0x10, 0] := by
    decide +kernel
  have hruns : (Image.mk (some ⟨4, 4⟩) moveThenDivide.code).RunsTo 9
      (.error ⟨.divisionByZero, 2, .zero⟩) (moveThenDivide.run 9).2.scene.canvas :=
    ⟨moveThenDivide, hmachine, hfault, rfl⟩
  refine ⟨_, _, hruns, rfl, ?_⟩
  intro image e
  have hdrawing : Path.LeadsTo "drawing" .working "drawing" := Path.leadsTo_of_isName (by decide)
  have hread : Directory.read ⟨[("image", image)]⟩ "image" = .ok image :=
    Directory.read_singleton _ (by decide)
  have hloads : Directory.Loads ⟨[("image", image)]⟩ "image" false
      ⟨some ⟨4, 4⟩, moveThenDivide.code⟩ := ⟨image, hread, .headed rfl⟩
  obtain ⟨-, hall, -⟩ := commands_have_only_their_effects
    (.run "image" "drawing" false ⟨9, true⟩) ⟨[("image", image)]⟩
  have he := hall _ _ _ (.ran hloads hruns) (by
    rintro _ _ ⟨⟩
    exact ⟨.working, "drawing", hdrawing⟩)
  refine ⟨he.output, he.exitCode, ?_, ?_⟩
  · rw [← hdrawn]
    exact he.directory.find?_written _ _ _ rfl hdrawing
  · rw [he.directory.find?_other "image" ?_]
    · rfl
    · rintro _ _ ⟨⟩ hsame
      have hname : "image" = "drawing" := (hsame.unique hdrawing).2
      exact absurd hname (by decide)

end CommandLine

end TurtleVM
