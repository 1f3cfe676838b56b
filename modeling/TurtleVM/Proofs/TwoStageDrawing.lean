import TurtleVM.Proofs.CommandEffects

/-! # Drawing in two stages

A source can be drawn at once, or assembled to an image file that is then run. Both come to the same
response (`respond_run_eq_respond_draw`), since the image that is read back is the one that was
written, and an assembled image always loads. So the two ways end alike and write the same drawing:
`drawing_is_assembling_then_running`.
-/

namespace TurtleVM.CommandLine

variable {d d' : Directory} {source image output name path : String} {contents bytes : Bytes}
variable {options : RunOptions}

/-- A file that has been written to the working folder is read back. -/
theorem Directory.IsAfter.read_eq (h : d'.IsAfter d (some (path, bytes)))
    (hpath : Path.LeadsTo path .working name) : d'.read path = .ok bytes := by
  have hfind := h.find?_written _ _ _ rfl hpath
  exact Directory.read_eq_ok_iff.mpr ⟨.working, name, hpath, by simp [hfind]⟩

theorem Directory.not_assembles (hread : d.read source = .ok contents)
    (h : ∀ bytes, ¬ AssemblesTo contents bytes) (bytes : Bytes) : ¬ d.Assembles source bytes := by
  rintro ⟨contents', hread', hbytes⟩
  obtain rfl := Except.ok.inj (hread.symm.trans hread')
  exact h bytes hbytes

/-! ### Running and drawing -/

/-- Running an assembled image and drawing its source ask for the same. -/
theorem respond_run_eq_respond_draw (hbytes : AssemblesTo contents bytes) :
    (Command.run image output false options).respond bytes =
      (Command.draw source output options).respond contents := by
  obtain ⟨program, -, hload, -⟩ := hbytes.exists_load
  simp only [Command.respond, assembleFile_eq_ok_iff.mpr hbytes,
    loadFile_eq_ok_iff.mpr (.headed hload), hload]

/-- Drawing wants to write what it is given a path for. -/
theorem exists_file_respond_draw (hbytes : AssemblesTo contents bytes) :
    ∃ drawing, ((Command.draw source output options).respond contents).file =
      some (output, drawing) := by
  obtain ⟨program, -, hload, -⟩ := hbytes.exists_load
  obtain ⟨outcome, canvas, hruns⟩ := program.exists_runsTo options.maxSteps
  simp only [Command.respond, assembleFile_eq_ok_iff.mpr hbytes, hload]
  exact ⟨_, (respondRun_of_runsTo output hruns).2.1⟩

/-- Both say the same about the run, in whatever directories they are carried out. -/
theorem errors_run_eq_errors_draw (hread : d.read image = .ok bytes)
    (hread' : d'.read source = .ok contents) (hbytes : AssemblesTo contents bytes)
    (houtput : Path.Writable output) :
    ((Command.run image output false options).carryOut d).errors =
      ((Command.draw source output options).carryOut d').errors := by
  have hran : (Command.run image output false options).carryOut d = _ :=
    Command.carryOut_of_read hread
  have hdrawn : (Command.draw source output options).carryOut d' = _ :=
    Command.carryOut_of_read hread'
  rw [hran, hdrawn, respond_run_eq_respond_draw hbytes]
  generalize hr : (Command.draw source output options).respond contents = r
  have hwritable : ∀ path bytes, r.file = some (path, bytes) → Path.Writable path := by
    intro path written hfile
    obtain ⟨drawing, hdrawing⟩ := exists_file_respond_draw hbytes
    rw [hr, hfile] at hdrawing
    cases hdrawing
    exact houtput
  obtain ⟨_, -, hending⟩ := r.exists_carryOut_eq d hwritable
  obtain ⟨_, -, hending'⟩ := r.exists_carryOut_eq d' hwritable
  rw [hending, hending']

/-- Wherever an image and its source are found, running the one and drawing the other succeed alike
and write the same drawing. -/
theorem run_and_draw_end_alike (hread : d.read image = .ok bytes)
    (hread' : d'.read source = .ok contents) (hbytes : AssemblesTo contents bytes)
    (houtput : Path.Writable output) :
    ∃ program outcome canvas, Image.load bytes = .ok program ∧
      program.RunsTo options.maxSteps outcome canvas ∧
      ((Command.run image output false options).carryOut d).HasOnly d ""
        (some (output, canvas.portableBitmap)) outcome.isOk ∧
      ((Command.draw source output options).carryOut d').HasOnly d' ""
        (some (output, canvas.portableBitmap)) outcome.isOk := by
  obtain ⟨program, -, hload, -⟩ := hbytes.exists_load
  obtain ⟨outcome, canvas, hruns⟩ := program.exists_runsTo options.maxSteps
  have hloads : d.Loads image false program := ⟨bytes, hread, .headed hload⟩
  have hassembles : d'.Assembles source bytes := ⟨contents, hread', hbytes⟩
  have hwritable : ∀ path written, some (output, canvas.portableBitmap) = some (path, written) →
      Path.Writable path := by
    rintro _ _ ⟨⟩
    exact houtput
  exact ⟨program, outcome, canvas, hload, hruns,
    (Command.HasEffects.ran hloads hruns).carryOut_hasOnly hwritable,
    (Command.HasEffects.drawn hassembles hload hruns).carryOut_hasOnly hwritable⟩

/-! ### Assembling -/

theorem assemble_hasOnly (hread : d.read source = .ok contents)
    (hbytes : AssemblesTo contents bytes) (himage : Path.Writable image) :
    ((Command.assemble source image).carryOut d).HasOnly d "" (some (image, bytes)) true := by
  apply (Command.HasEffects.assembled ⟨contents, hread, hbytes⟩).carryOut_hasOnly
  rintro _ _ ⟨⟩
  exact himage

theorem assemble_hasOnly_of_not (hread : d.read source = .ok contents)
    (h : ∀ bytes, ¬ AssemblesTo contents bytes) :
    ((Command.assemble source image).carryOut d).HasOnly d "" none false :=
  (Command.HasEffects.notAssembled (Directory.not_assembles hread h)).carryOut_hasOnly nofun

theorem draw_hasOnly_of_not (hread : d.read source = .ok contents)
    (h : ∀ bytes, ¬ AssemblesTo contents bytes) :
    ((Command.draw source output options).carryOut d).HasOnly d "" none false :=
  (Command.HasEffects.notDrawn (Directory.not_assembles hread h)).carryOut_hasOnly nofun

/-- An assembled image is listed without complaint. -/
theorem exitCode_disassemble (hread : d.read image = .ok bytes)
    (hbytes : AssemblesTo contents bytes) :
    ((Command.disassemble image false).carryOut d).exitCode = 0 := by
  obtain ⟨program, n, hload, hverify⟩ := hbytes.exists_load
  have hloads : d.Loads image false program := ⟨bytes, hread, .headed hload⟩
  rw [((Command.HasEffects.listed hloads).carryOut_hasOnly nofun).exitCode, hverify]
  rfl

/-! ### Both ways -/

/-- **Drawing is assembling and then running.** Let a source be read from a directory where it is
assembled to an image that is then run, and from a directory, the same or another, where it is
drawn, and let the image and the drawing go to paths that can be written to. Assembling succeeds
exactly if the source is a text that assembles. In that case the image that is written loads with
its header and is listed without complaint; the two ways show the same and answer the same; and both
write the drawing that running the loaded image leaves. In the other case neither way succeeds, and
nothing is written. -/
theorem drawing_is_assembling_then_running (options : RunOptions)
    (hread : d.read source = .ok contents) (hread' : d'.read source = .ok contents)
    (himage : Path.LeadsTo image .working name) (houtput : Path.Writable output) :
    let assembled := (Command.assemble source image).carryOut d
    let ran := (Command.run image output false options).carryOut assembled.directory
    let drawn := (Command.draw source output options).carryOut d'
    (assembled.exitCode = 0 ↔ ∃ bytes, AssemblesTo contents bytes) ∧
    (∀ bytes, AssemblesTo contents bytes →
      assembled.directory.read image = .ok bytes ∧
      (∃ program outcome canvas, Image.load bytes = .ok program ∧
        program.RunsTo options.maxSteps outcome canvas ∧
        ran.directory.IsAfter assembled.directory (some (output, canvas.portableBitmap)) ∧
        drawn.directory.IsAfter d' (some (output, canvas.portableBitmap))) ∧
      ran.exitCode = drawn.exitCode ∧ ran.output = drawn.output ∧ ran.errors = drawn.errors ∧
      ((Command.disassemble image false).carryOut assembled.directory).exitCode = 0) ∧
    ((∀ bytes, ¬ AssemblesTo contents bytes) →
      assembled.exitCode = 1 ∧ assembled.directory = d ∧
      drawn.exitCode = 1 ∧ drawn.directory = d') := by
  intro assembled ran drawn
  have hok : ∀ bytes, AssemblesTo contents bytes →
      assembled.HasOnly d "" (some (image, bytes)) true :=
    fun bytes hbytes => assemble_hasOnly hread hbytes ⟨.working, name, himage⟩
  refine ⟨?_, ?_, ?_⟩
  · by_cases h : ∃ bytes, AssemblesTo contents bytes
    · obtain ⟨bytes, hbytes⟩ := h
      exact iff_of_true (hok bytes hbytes).exitCode ⟨bytes, hbytes⟩
    · have hcode : assembled.exitCode = 1 :=
        (assemble_hasOnly_of_not hread (not_exists.mp h)).exitCode
      exact iff_of_false (by simp [hcode]) h
  · intro bytes hbytes
    -- The image is read back, so that all three commands find the same program.
    have hreads : assembled.directory.read image = .ok bytes :=
      (hok bytes hbytes).directory.read_eq himage
    obtain ⟨program, outcome, canvas, hload, hruns, hran, hdrawn⟩ :=
      run_and_draw_end_alike hreads hread' hbytes houtput
    exact ⟨hreads, ⟨program, outcome, canvas, hload, hruns, hran.directory, hdrawn.directory⟩,
      hran.exitCode.trans hdrawn.exitCode.symm, hran.output.trans hdrawn.output.symm,
      errors_run_eq_errors_draw hreads hread' hbytes houtput,
      exitCode_disassemble hreads hbytes⟩
  · intro hnone
    have hassembled : assembled.HasOnly d "" none false := assemble_hasOnly_of_not hread hnone
    have hdrawn : drawn.HasOnly d' "" none false := draw_hasOnly_of_not hread' hnone
    exact ⟨hassembled.exitCode, hassembled.directory.unwritten rfl, hdrawn.exitCode,
      hdrawn.directory.unwritten rfl⟩

/-- A walk around a corner, with a label to jump back to and one to jump ahead to. -/
def cornerWalk : String :=
  "WIDTH 8\nHEIGHT 4\nSTO B 3\nDRW\nagain: MOV\nDEC B\nJEQ B 0 done\n" ++
  "ADD A 90\nJNZ B again\ndone: HLT\n"

/-- The machine that the image of `cornerWalk` loads as. -/
def cornerMachine : Machine :=
  ⟨#[3, 1, 3, 0, 1, 2, 6, 1, 12, 1, 0, 0, 22, 0, 5, 0, 90, 0, 7, 1, 5, 0, 8], 0, .running, 0,
    ⟨.zero, .centred ⟨8, 4⟩, ⟨⟨8, 4⟩, #[0, 0, 0, 0], by decide⟩⟩⟩

/-- The image of `cornerWalk` is its code behind the sides of its canvas. -/
theorem assemblesTo_cornerWalk :
    AssemblesTo cornerWalk.toUTF8.data (#[8, 0, 4, 0] ++ cornerMachine.code) := by
  have htext : String.fromUTF8? cornerWalk.toUTF8 = some cornerWalk :=
    dif_pos cornerWalk.isValidUTF8
  have hsource : Assembly.assembleSource Assembly.standardCapacity cornerWalk.toList
      (Array.replicate 27 0) = (.ok ⟨27, ⟨8, 4⟩⟩, #[8, 0, 4, 0] ++ cornerMachine.code) := by
    decide +kernel
  have himage := Assembly.imageOfSource_of_assembleSource hsource
  have hwhole : (#[8, 0, 4, 0] ++ cornerMachine.code).size ≤ 27 := by decide
  rw [Array.extract_eq_self_of_le hwhole] at himage
  exact ⟨cornerWalk, htext, himage⟩

/-- A source that jumps both ways is drawn the same at once and in two stages: both ways leave the
three points that the turtle moves to. -/
theorem drawing_is_assembling_then_running_of_cornerWalk :
    let d : Directory := ⟨[("source", cornerWalk.toUTF8.data)]⟩
    let assembled := (Command.assemble "source" "image").carryOut d
    let ran := (Command.run "image" "drawing" false ⟨40, true⟩).carryOut assembled.directory
    let drawn := (Command.draw "source" "drawing" ⟨40, true⟩).carryOut d
    let drawing := "P4\n8 4\n".toUTF8.data ++ #[0, 0, 0x04, 0x0c]
    assembled.exitCode = 0 ∧
      assembled.directory.read "image" = .ok (#[8, 0, 4, 0] ++ cornerMachine.code) ∧
      ran.exitCode = drawn.exitCode ∧ ran.errors = drawn.errors ∧
      ran.directory.find? "drawing" = some drawing ∧
      drawn.directory.find? "drawing" = some drawing := by
  have hread : Directory.read ⟨[("source", cornerWalk.toUTF8.data)]⟩ "source" =
      .ok cornerWalk.toUTF8.data :=
    Directory.read_singleton _ (by decide)
  have himage : Path.LeadsTo "image" .working "image" := Path.leadsTo_of_isName (by decide)
  have hdrawing : Path.LeadsTo "drawing" .working "drawing" := Path.leadsTo_of_isName (by decide)
  obtain ⟨hcode, hsame, -⟩ :=
    drawing_is_assembling_then_running ⟨40, true⟩ hread hread himage ⟨.working, _, hdrawing⟩
  obtain ⟨hreads, ⟨program, outcome, canvas, hload, hruns, hran, hdrawn⟩, hexit, -, herrors, -⟩ :=
    hsame _ assemblesTo_cornerWalk
  -- The run is one of a machine that is known, so the canvas can be computed.
  have hloaded : Image.load (#[8, 0, 4, 0] ++ cornerMachine.code) =
      .ok ⟨some ⟨8, 4⟩, cornerMachine.code⟩ := rfl
  have hmachine : Machine.load ⟨some ⟨8, 4⟩, cornerMachine.code⟩
      (Array.replicate (CanvasSize.mk 8 4).byteCount 0) = .ok cornerMachine := rfl
  have hbitmap : (cornerMachine.run 40).2.scene.canvas.portableBitmap =
      "P4\n8 4\n".toUTF8.data ++ #[0, 0, 0x04, 0x0c] := by
    decide +kernel
  obtain rfl := Except.ok.inj (hload.symm.trans hloaded)
  obtain ⟨m, hm, -, hcanvas⟩ := hruns
  obtain rfl := Except.ok.inj (hm.symm.trans hmachine)
  rw [← hcanvas, hbitmap] at hran hdrawn
  exact ⟨hcode.mpr ⟨_, assemblesTo_cornerWalk⟩, hreads, hexit, herrors,
    hran.find?_written _ _ _ rfl hdrawing, hdrawn.find?_written _ _ _ rfl hdrawing⟩

end TurtleVM.CommandLine
