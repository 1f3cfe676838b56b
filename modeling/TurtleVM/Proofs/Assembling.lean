import TurtleVM.Proofs.ImageWriting
import TurtleVM.Proofs.LayingOut

/-! # What assembly produces

The main statement is `assemble_eq_ok_iff`: assembly succeeds exactly on the lines that fulfil
`Assembles`, and then the buffer holds the canvas size, the code of the program that the lines
state, and behind it what it held before. The first pass is `layOutAll_eq_ok_iff`; for the second,
`Emission.Holds` is what every emitted line keeps.
-/

namespace TurtleVM.Assembly

variable {capacity : Nat} {all done rest lines : List Line} {line : Line} {buffer : Bytes}

/-! ### What can be assembled -/

/-- What lines must be to be assembled: they can be laid out, every label of a jump is defined, and
the buffer has room for the header and the code. -/
structure Assembles (capacity : Nat) (lines : List Line) (room : Nat) : Prop
    extends LaysOut capacity lines where
  labels_defined : ∀ c ∈ commands lines, ∀ label, c.label? = some label → label ∈ definedNames lines
  buffer_long : 4 + codeWidth lines ≤ room

/-! ### Resolving names -/

theorem resolve_labelTable (hall : LaysOut capacity all) {name : String} {offset : UInt16} :
    Emission.resolve (labelTable all) name = .ok offset ↔
      name ∈ definedNames all ∧ offset = offsetWord all name := by
  by_cases hshort : name.utf8ByteSize ≤ 32
  · rw [Emission.resolve, Layout.shortName_of_le hshort, ok_bind]
    simp only [offsetOf?_labelTable]
    by_cases hname : name ∈ definedNames all
    · rw [if_pos hname, pure_eq_ok, and_iff_right hname]
      exact eq_comm
    · rw [if_neg hname]
      simp only [throw_ne_ok, hname, false_and]
  · -- A name that is too long is not defined either.
    have hname : name ∉ definedNames all := fun h => hshort (hall.names_short name h)
    rw [Emission.resolve, Layout.shortName_of_lt (Nat.not_le.mp hshort), error_bind]
    simp only [reduceCtorEq, hname, false_and]

/-- A command is resolved exactly if its label is defined. -/
theorem resolve_command (hall : LaysOut capacity all) {c : Command} {s : Statement} :
    Draft.resolve (Emission.resolve (labelTable all)) (.command c) = .ok s ↔
      (∀ label, c.label? = some label → label ∈ definedNames all) ∧
        s = .instruction (c.instruction (offsetWord all)) := by
  cases c with
  | plain i straight =>
    simp only [Draft.resolve, Command.label?, Command.instruction, pure_eq_ok, reduceCtorEq,
      false_implies, implies_true, true_and]
    exact eq_comm
  | jump condition label =>
    simp only [Draft.resolve, bind_eq_ok, pure_eq_ok, resolve_labelTable hall, Command.label?,
      Option.some.injEq, Command.instruction]
    constructor
    · intro h
      obtain ⟨offset, ⟨hlabel, rfl⟩, rfl⟩ := h
      exact ⟨fun _ h => h ▸ hlabel, rfl⟩
    · intro h
      obtain ⟨hlabel, rfl⟩ := h
      exact ⟨_, ⟨hlabel label rfl, rfl⟩, rfl⟩

/-! ### Emitting a line -/

/-- The lines that are done are emitted, with the names of all lines. -/
structure Emission.Holds (e : Emission) (all done : List Line) (buffer : Bytes) : Prop where
  labels : e.labels = labelTable all
  size : e.writer.size = canvasSize all
  code : e.writer.Holds buffer (Bytecode.codeOf (instructions (offsetWord all) done))

/-- Writes the instruction of what a line states. -/
def Emission.addDraft : Option Draft → Emission → Except Cause Unit × Emission
  | none, e => (.ok (), e)
  | some d, e =>
    match d.resolve (resolve e.labels) with
    | .error cause => (.error cause, e)
    | .ok (.side _ _) => (.ok (), e)
    | .ok (.instruction i) =>
      ((e.writer.add i).1.mapError .write, ⟨(e.writer.add i).2, e.labels⟩)

/-- A line is emitted by emitting its draft. -/
theorem Emission.emit_eq (line : Line) (e : Emission) : e.emit line =
    match line.draft? with
    | .error cause => (.error cause, e)
    | .ok draft => e.addDraft draft := by
  unfold emit Line.draft?
  cases line.instruction? with
  | none => rfl
  | some instruction =>
    obtain ⟨word, operands⟩ := instruction
    simp only [Statement.ofWords_eq]
    cases Draft.ofWords word operands with
    | error cause => rfl
    | ok d => rfl

theorem Emission.addLine_eq_ok_iff {e e' : Emission} :
    e.addLine line = (.ok (), e') ↔ e.emit line = (.ok (), e') := by
  unfold addLine
  rw [Prod.mk.injEq, mapError_eq_ok_iff, Prod.ext_iff]

theorem Emission.written_eq_ok_iff {w : Image.Writer} {i : Instruction} {labels : List Label}
    {e' : Emission} :
    ((w.add i).1.mapError Cause.write, (⟨(w.add i).2, labels⟩ : Emission)) = (.ok (), e') ↔
      w.add i = (.ok (), e'.writer) ∧ e'.labels = labels := by
  obtain ⟨writer', labels'⟩ := e'
  rw [Prod.mk.injEq, mapError_eq_ok_iff, Prod.ext_iff]
  simp [and_assoc, eq_comm]

/-- Only one emission is left by the same lines. -/
theorem Emission.Holds.unique {e e' : Emission} (h : e.Holds all done buffer)
    (h' : e'.Holds all done buffer) : e' = e := by
  have hwriter := h.code.unique h'.code (h'.size.trans h.size.symm)
  have hlabels := h'.labels.trans h.labels.symm
  cases e
  cases e'
  simp_all

/-- What the lines that are done must be, to be emitted with the names of all lines. -/
structure Emits (all done : List Line) (room : Nat) : Prop where
  labels_defined : ∀ c ∈ commands done, ∀ label, c.label? = some label → label ∈ definedNames all
  buffer_long : 4 + codeWidth done ≤ room

/-- A line without a command adds nothing. -/
theorem Emission.holds_append_iff {e : Emission} (h : line.command? = none) :
    e.Holds all (done ++ [line]) buffer ↔ e.Holds all done buffer := by
  have hline := instructions_of_no_command (offsetWord all) h
  constructor
  · intro ⟨hlabels, hsize, hcode⟩
    rw [instructions_append, hline, List.append_nil] at hcode
    exact ⟨hlabels, hsize, hcode⟩
  · intro ⟨hlabels, hsize, hcode⟩
    refine ⟨hlabels, hsize, ?_⟩
    rwa [instructions_append, hline, List.append_nil]

/-- A line with a command adds the code of its instruction. -/
theorem Emission.holds_append_command_iff {e : Emission} {c : Command}
    (h : line.command? = some c) : e.Holds all (done ++ [line]) buffer ↔
      e.labels = labelTable all ∧ e.writer.size = canvasSize all ∧
        e.writer.Holds buffer (Bytecode.codeOf (instructions (offsetWord all) done) ++
          (c.instruction (offsetWord all)).encode) := by
  have hcode : Bytecode.codeOf (instructions (offsetWord all) (done ++ [line])) =
      Bytecode.codeOf (instructions (offsetWord all) done) ++
        (c.instruction (offsetWord all)).encode := by
    rw [instructions_append, instructions_of_command _ h, Bytecode.codeOf_append,
      Bytecode.codeOf_cons, Bytecode.codeOf_nil, List.append_nil]
  rw [← hcode]
  exact ⟨fun ⟨hlabels, hsize, hcode⟩ => ⟨hlabels, hsize, hcode⟩,
    fun ⟨hlabels, hsize, hcode⟩ => ⟨hlabels, hsize, hcode⟩⟩

theorem emits_append_iff {room : Nat} (hd : Emits all done room) :
    Emits all (done ++ [line]) room ↔ ∀ c, line.command? = some c →
      (∀ label, c.label? = some label → label ∈ definedNames all) ∧
        4 + codeWidth done + c.width ≤ room := by
  have hlong := hd.buffer_long
  constructor
  · intro ⟨hlabels, hroom⟩ c hc
    refine ⟨hlabels c (by simp [hc]), ?_⟩
    rwa [codeWidth_append, codeWidth_of_command hc, ← Nat.add_assoc] at hroom
  · intro h
    refine ⟨fun c hc => ?_, ?_⟩
    · rw [commands_append, commands_singleton, List.mem_append, Option.mem_toList] at hc
      rcases hc with hc | hc
      · exact hd.labels_defined c hc
      · exact (h c hc).1
    · rw [codeWidth_append]
      cases hcommand : line.command? with
      | none => rwa [codeWidth_of_no_command hcommand]
      | some c =>
        rw [codeWidth_of_command hcommand, ← Nat.add_assoc]
        exact (h c hcommand).2

/-- A command is emitted exactly if its label is defined and the buffer has room. -/
theorem Emission.addDraft_command_eq_ok_iff (hall : LaysOut capacity all) {e e' : Emission}
    (he : e.Holds all done buffer) {c : Command} (hshort : codeWidth done + c.width ≤ 65535) :
    e.addDraft (some (.command c)) = (.ok (), e') ↔
      ((∀ label, c.label? = some label → label ∈ definedNames all) ∧
        4 + codeWidth done + c.width ≤ buffer.size) ∧
      e'.labels = labelTable all ∧ e'.writer.size = canvasSize all ∧
        e'.writer.Holds buffer (Bytecode.codeOf (instructions (offsetWord all) done) ++
          (c.instruction (offsetWord all)).encode) := by
  simp only [addDraft, he.labels]
  cases hresolve : Draft.resolve (resolve (labelTable all)) (.command c) with
  | error cause =>
    simp only [Prod.mk.injEq, reduceCtorEq, false_and, false_iff]
    intro ⟨⟨hlabels, _⟩, _⟩
    -- With its label defined the command would be resolved.
    rw [(resolve_command hall).mpr ⟨hlabels, rfl⟩] at hresolve
    cases hresolve
  | ok s =>
    obtain ⟨hlabels, rfl⟩ := (resolve_command hall).mp hresolve
    have hadd : e.writer.add (c.instruction (offsetWord all)) = (.ok (), e'.writer) ↔ _ :=
      he.code.add_eq_ok_iff
    rw [Bytecode.length_codeOf, widthOf_instructions, Command.width_instruction, he.size] at hadd
    simp only [written_eq_ok_iff, hadd]
    constructor
    · intro ⟨⟨_, hroom, hsize, hcode⟩, htable⟩
      exact ⟨⟨hlabels, hroom⟩, htable, hsize, hcode⟩
    · intro ⟨⟨_, hroom⟩, htable, hsize, hcode⟩
      exact ⟨⟨hshort, hroom, hsize, hcode⟩, htable⟩

/-- Lines that can be laid out leave the code short up to each command. -/
theorem LaysOut.command_short (hall : LaysOut capacity all) (hrest : all = done ++ line :: rest)
    {c : Command} (hcommand : line.command? = some c) : codeWidth done + c.width ≤ 65535 := by
  have hle := hall.code_short
  rw [hrest, List.append_cons, codeWidth_append, codeWidth_append,
    codeWidth_of_command hcommand] at hle
  omega

/-- One more line: from the emission of some lines to the emission of these and the line. -/
theorem emission_addLine_eq_ok_iff (hall : LaysOut capacity all)
    (hrest : all = done ++ line :: rest) (hd : Emits all done buffer.size) {e e' : Emission}
    (he : e.Holds all done buffer) :
    e.addLine line = (.ok (), e') ↔
      Emits all (done ++ [line]) buffer.size ∧ e'.Holds all (done ++ [line]) buffer := by
  rw [Emission.addLine_eq_ok_iff, Emission.emit_eq, emits_append_iff hd]
  obtain ⟨draft, hdraft⟩ := Line.exists_draft?_iff.mpr (hall.statements line (by simp [hrest]))
  rw [hdraft]
  have hcommand := Line.command?_of_draft? hdraft
  -- Without a command the emission stays as it is, and so does all it holds.
  have hnone (hnone : line.command? = none) : ((.ok (), e) : Except Cause Unit × _) = (.ok (), e') ↔
      (∀ c, line.command? = some c → (∀ label, c.label? = some label → label ∈ definedNames all) ∧
        4 + codeWidth done + c.width ≤ buffer.size) ∧ e'.Holds all (done ++ [line]) buffer := by
    rw [Emission.holds_append_iff hnone]
    simp only [hnone, reduceCtorEq, false_implies, implies_true, true_and, Prod.mk.injEq]
    constructor
    · intro h
      subst h
      exact he
    · intro he'
      exact (he.unique he').symm
  rcases draft with _ | c | ⟨s, length, nonzero⟩
  · exact hnone hcommand
  · have hcommand : line.command? = some c := hcommand
    simp only [hcommand, Option.some.injEq, forall_eq', Emission.holds_append_command_iff hcommand]
    exact Emission.addDraft_command_eq_ok_iff hall he (hall.command_short hrest hcommand)
  · exact hnone hcommand

/-! ### All lines -/

theorem Emits.of_append {room : Nat} (h : Emits all (done ++ rest) room) : Emits all done room where
  labels_defined c hc := h.labels_defined c (by simp [hc])
  buffer_long := by
    have hlong := h.buffer_long
    rw [codeWidth_append] at hlong
    omega

theorem emits_nil {room : Nat} (h : 4 ≤ room) : Emits all [] room where
  labels_defined _ hc := nomatch hc
  buffer_long := h

theorem Emits.exists_holds (h : Emits all done buffer.size) :
    ∃ e : Emission, e.Holds all done buffer := by
  have hroom : 4 + (Bytecode.codeOf (instructions (offsetWord all) done)).length ≤ buffer.size := by
    rw [Bytecode.length_codeOf, widthOf_instructions]
    exact h.buffer_long
  obtain ⟨w, hsize, hw⟩ := Image.Writer.exists_holds hroom (canvasSize all)
  exact ⟨⟨w, labelTable all⟩, rfl, hsize, hw⟩

/-- From an emission of the lines so far, emitting the next lines. -/
theorem emitAll_eq_ok_iff_of_holds (hall : LaysOut capacity all) {next : List Line}
    (hrest : all = done ++ (next ++ rest)) (hd : Emits all done buffer.size) {e e' : Emission}
    (he : e.Holds all done buffer) :
    emitAll .ok next e = (.ok (), e') ↔
      Emits all (done ++ next) buffer.size ∧ e'.Holds all (done ++ next) buffer := by
  -- Induction on the lines to come; the emission holds the lines that are done.
  induction next generalizing done e with
  | nil =>
    rw [List.append_nil, emitAll, Prod.mk.injEq]
    constructor
    · intro h
      obtain ⟨-, rfl⟩ := h
      exact ⟨hd, he⟩
    · intro ⟨_, he'⟩
      exact ⟨rfl, (he.unique he').symm⟩
  | cons line next ih =>
    simp only [emitAll]
    rcases hadd : e.addLine line with ⟨error | ⟨⟩, e₁⟩
    · simp only [Prod.mk.injEq, reduceCtorEq, false_and, false_iff, not_and]
      intro hemits _
      -- The line belongs to lines that can be emitted, so it cannot be refused.
      have hline : Emits all (done ++ [line]) buffer.size := by
        rw [List.append_cons] at hemits
        exact hemits.of_append
      obtain ⟨e₂, he₂⟩ := hline.exists_holds
      rw [(emission_addLine_eq_ok_iff hall hrest hd he).mpr ⟨hline, he₂⟩] at hadd
      cases hadd
    · obtain ⟨hd₁, he₁⟩ := (emission_addLine_eq_ok_iff hall hrest hd he).mp hadd
      have hrest₁ : all = done ++ [line] ++ (next ++ rest) := by
        rw [hrest, List.cons_append, List.append_cons]
      rw [List.append_cons]
      exact ih hrest₁ hd₁ he₁

/-- An emission starts with the canvas size and the table of the layout. -/
theorem start_of_le {l : Layout} (hl : l.Describes capacity all) (h : 4 ≤ buffer.size) :
    ∃ e, Emission.start l buffer = .ok e ∧ e.Holds all [] buffer := by
  obtain ⟨w, hw, -, hholds⟩ := Image.Writer.start_of_le h
  refine ⟨⟨w.setSize l.size, l.labels⟩, by rw [Emission.start, hw], hl.labels, hl.size, ?_⟩
  exact hholds.setSize l.size

/-- An emission that starts has room for the header. -/
theorem holds_of_start {l : Layout} (hl : l.Describes capacity all) {e : Emission}
    (hstart : Emission.start l buffer = .ok e) : 4 ≤ buffer.size ∧ e.Holds all [] buffer := by
  by_cases hroom : 4 ≤ buffer.size
  · obtain ⟨e', hstart', he'⟩ := start_of_le hl hroom
    obtain rfl := Except.ok.inj (hstart'.symm.trans hstart)
    exact ⟨hroom, he'⟩
  · rw [Emission.start, Image.Writer.start_of_lt (Nat.not_le.mp hroom)] at hstart
    cases hstart

theorem assemble_eq_ok_iff_exists {d : Image.Descriptor} {written : Bytes} :
    assemble capacity lines buffer = (.ok d, written) ↔
      ∃ l e₀ e, layOutAll .ok lines (.empty capacity) = .ok l ∧
        Emission.start l buffer = .ok e₀ ∧ emitAll .ok lines e₀ = (.ok (), e) ∧
        d = e.writer.descriptor ∧ written = e.writer.buffer := by
  unfold assemble assembleWith
  cases hlayout : layOutAll .ok lines (.empty capacity) with
  | error error => simp
  | ok l =>
    cases hstart : Emission.start l buffer with
    | error error => simp [hstart]
    | ok e₀ =>
      rcases hemit : emitAll .ok lines e₀ with ⟨_ | _, e⟩
      · simp [hstart, hemit, Except.map]
      · simp [hstart, hemit, Except.map, eq_comm]

/-- From the layout of the lines, the image is what the second pass leaves. -/
theorem emits_iff_assembles (hall : LaysOut capacity lines) {room : Nat} :
    Emits lines lines room ↔ Assembles capacity lines room :=
  ⟨fun h => ⟨hall, h.labels_defined, h.buffer_long⟩,
    fun h => ⟨h.labels_defined, h.buffer_long⟩⟩

/-- What is left once all lines are emitted: the canvas size and the code of the program. -/
theorem Emission.Holds.image {e : Emission} (h : e.Holds lines lines buffer) :
    e.writer.descriptor = ⟨4 + codeWidth lines, canvasSize lines⟩ ∧
    e.writer.buffer.toList = (canvasSize lines).headerBytes ++ Bytecode.codeOf (program lines) ++
      buffer.toList.drop (4 + codeWidth lines) := by
  have hused : e.writer.used = 4 + codeWidth lines := by
    rw [h.code.used, Bytecode.length_codeOf, widthOf_instructions]
  constructor
  · rw [Image.Writer.descriptor, hused, h.size]
  · rw [h.code.contents, hused, h.size]
    rfl

variable {d : Image.Descriptor} {written : Bytes}

/-- What follows from success. -/
theorem assembles_of_assemble (h : assemble capacity lines buffer = (.ok d, written)) :
    Assembles capacity lines buffer.size ∧ d = ⟨4 + codeWidth lines, canvasSize lines⟩ ∧
      written.toList = (canvasSize lines).headerBytes ++ Bytecode.codeOf (program lines) ++
        buffer.toList.drop (4 + codeWidth lines) := by
  obtain ⟨l, e₀, e, hlayout, hstart, hemit, rfl, rfl⟩ := assemble_eq_ok_iff_exists.mp h
  obtain ⟨hall, hl⟩ := layOutAll_eq_ok_iff.mp hlayout
  obtain ⟨hroom, he₀⟩ := holds_of_start hl hstart
  have hlines : lines = [] ++ (lines ++ []) := (List.append_nil lines).symm
  obtain ⟨hemits, he⟩ :=
    (emitAll_eq_ok_iff_of_holds hall hlines (emits_nil hroom) he₀).mp hemit
  exact ⟨(emits_iff_assembles hall).mp hemits, he.image⟩

/-- Lines that can be assembled are. -/
theorem exists_assemble_eq_ok (h : Assembles capacity lines buffer.size) :
    ∃ d written, assemble capacity lines buffer = (.ok d, written) := by
  have hall := h.toLaysOut
  have hemits := (emits_iff_assembles hall).mpr h
  have hroom : 4 ≤ buffer.size := Nat.le_of_add_right_le h.buffer_long
  obtain ⟨l, hl⟩ := hall.exists_describes
  obtain ⟨e₀, hstart, he₀⟩ := start_of_le hl hroom
  obtain ⟨e, he⟩ := hemits.exists_holds
  have hlayout := layOutAll_eq_ok_iff.mpr ⟨hall, hl⟩
  have hlines : lines = [] ++ (lines ++ []) := (List.append_nil lines).symm
  have hemit := (emitAll_eq_ok_iff_of_holds hall hlines (emits_nil hroom) he₀).mpr ⟨hemits, he⟩
  exact ⟨_, _, assemble_eq_ok_iff_exists.mpr ⟨l, e₀, e, hlayout, hstart, hemit, rfl, rfl⟩⟩

/-- **Assembly.** Lines are assembled exactly if they fulfil `Assembles`. The image then has four
bytes for the canvas size and the code of the instructions of the lines in order, each label
replaced by the width of the instructions on the lines before its definition. The rest of the
buffer is untouched. -/
theorem assemble_eq_ok_iff (capacity : Nat) (lines : List Line) (buffer : Bytes)
    (d : Image.Descriptor) (written : Bytes) :
    assemble capacity lines buffer = (.ok d, written) ↔
      Assembles capacity lines buffer.size ∧
      d = ⟨4 + codeWidth lines, canvasSize lines⟩ ∧
      written.toList = (canvasSize lines).headerBytes ++ Bytecode.codeOf (program lines) ++
        buffer.toList.drop (4 + codeWidth lines) := by
  constructor
  · exact assembles_of_assemble
  · intro ⟨hassembles, hd, hwritten⟩
    -- Success fixes what is written, so it must be the given image.
    obtain ⟨d', written', h⟩ := exists_assemble_eq_ok hassembles
    obtain ⟨-, hd', hwritten'⟩ := assembles_of_assemble h
    rw [h, hd, hd', Array.toList_inj.mp (hwritten.trans hwritten'.symm)]

end TurtleVM.Assembly
