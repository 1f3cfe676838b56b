import TurtleVM.Proofs.Assembling
import TurtleVM.Proofs.SourceErrors

/-! # Assembly that fails

Assembly fails in one of three ways, and each tells where it stopped and what the buffer then holds
(`assemble_eq_error_iff`):

* a line is refused while lines are laid out, and nothing has been written;
* the buffer has no room for the header, and nothing has been written;
* an instruction cannot be written, because the label of a jump has no offset or because the buffer
  is full. The buffer then holds the image of the lines before.

`Unwritten` lists the causes of the third kind. In particular no instruction makes the code too long
any more: the lines have been laid out with the same widths.
-/

namespace TurtleVM.Assembly

variable {capacity : Nat} {all done rest lines : List Line} {line : Line} {buffer written : Bytes}
variable {error : Error} {cause : Cause} {e e' e₀ : Emission}

/-! ### Where a pass stops -/

/-- Laying out stops at a line: those before it are taken, and it is refused for the cause. -/
def RefusesAt (capacity : Nat) (done : List Line) (line : Line) (cause : Cause) : Prop :=
  ∃ l, layOutAll .ok done (.empty capacity) = .ok l ∧ (l.layOut line).1 = .error cause

/-- Emitting stops at a line: with all lines laid out, those before it are emitted, and it is not,
for the cause. -/
def StopsAt (capacity : Nat) (lines : List Line) (buffer : Bytes) (done : List Line) (line : Line)
    (cause : Cause) : Prop :=
  ∃ l e₀ e, layOutAll .ok lines (.empty capacity) = .ok l ∧ Emission.start l buffer = .ok e₀ ∧
    emitAll .ok done e₀ = (.ok (), e) ∧ (e.emit line).1 = .error cause

/-- Laying out fails at the first refused line, with its number. -/
theorem layOutAll_eq_error_iff_refusesAt :
    layOutAll .ok lines (.empty capacity) = .error error ↔ ∃ done line rest cause,
      lines = done ++ line :: rest ∧ RefusesAt capacity done line cause ∧
        error = .onLine line.number cause := by
  rw [layOutAll_eq_error_iff]
  constructor
  · intro ⟨done, line, rest, l, hlines, hdone, hrefused⟩
    obtain ⟨cause, hcause, herror⟩ := mapError_eq_error_iff.mp hrefused
    exact ⟨done, line, rest, cause, hlines, ⟨l, hdone, hcause⟩, herror⟩
  · intro ⟨done, line, rest, cause, hlines, ⟨l, hdone, hcause⟩, herror⟩
    exact ⟨done, line, rest, l, hlines, hdone, mapError_eq_error_iff.mpr ⟨cause, hcause, herror⟩⟩

/-- Emitting fails at the first line that is not emitted, and leaves what this line leaves. -/
theorem emitAll_eq_error_iff :
    emitAll .ok lines e₀ = (.error error, e') ↔ ∃ done line rest e,
      lines = done ++ line :: rest ∧ emitAll .ok done e₀ = (.ok (), e) ∧
        e.addLine line = (.error error, e') := by
  constructor
  · intro h
    induction lines generalizing e₀ with
    | nil => cases h
    | cons line lines ih =>
      rw [emitAll] at h
      rcases hadd : e₀.addLine line with ⟨error' | ⟨⟩, e₁⟩
      · simp only [hadd] at h
        exact ⟨[], line, lines, e₀, rfl, rfl, hadd.trans h⟩
      · simp only [hadd] at h
        obtain ⟨done, failed, rest, e, hlines, hdone, hfailed⟩ := ih h
        refine ⟨line :: done, failed, rest, e, congrArg (line :: ·) hlines, ?_, hfailed⟩
        simp only [emitAll, hadd]
        exact hdone
  · intro h
    obtain ⟨done, line, rest, e, rfl, hdone, hfailed⟩ := h
    induction done generalizing e₀ with
    | nil =>
      obtain rfl : e₀ = e := congrArg Prod.snd hdone
      simp only [List.nil_append, emitAll, hfailed]
    | cons first done ih =>
      rw [emitAll] at hdone
      rcases hadd : e₀.addLine first with ⟨error' | ⟨⟩, e₁⟩
      · simp only [hadd] at hdone
        cases hdone
      · simp only [hadd] at hdone
        simp only [List.cons_append, emitAll, hadd]
        exact ih hdone

/-! ### Why an instruction is not written -/

/-- Why the command of a line is not written behind the lines that are done, and which of its bytes
are. -/
inductive Unwritten (lines done : List Line) (room : Nat) (c : Command) :
    Cause → List UInt8 → Prop where
  /-- The label of the jump has a name that no label can have. -/
  | nameTooLong (label : String) (hlabel : c.label? = some label)
      (hlong : 32 < label.utf8ByteSize) : Unwritten lines done room c .nameTooLong []
  /-- The label of the jump is defined on no line. -/
  | unknownLabel (label : String) (hlabel : c.label? = some label)
      (hshort : label.utf8ByteSize ≤ 32) (hunknown : label ∉ definedNames lines) :
      Unwritten lines done room c (.unknownLabel label) []
  /-- The buffer ends before the instruction does. -/
  | bufferTooSmall (hlabel : ∀ label, c.label? = some label → label ∈ definedNames lines)
      (hfull : room < 4 + codeWidth done + c.width) :
      Unwritten lines done room c (.write .bufferTooSmall)
        ((c.instruction (offsetWord lines)).encode.take (room - (4 + codeWidth done)))

variable {room : Nat} {c : Command} {bytes bytes' : List UInt8}

theorem Unwritten.unique (h : Unwritten lines done room c cause bytes)
    (h' : Unwritten lines done room c cause bytes') : bytes' = bytes := by
  cases h <;> cases h' <;> rfl

/-- A name has no offset if it is too long or defined on no line. -/
theorem resolve_labelTable_eq_error_iff {name : String} :
    Emission.resolve (labelTable all) name = .error cause ↔
      (32 < name.utf8ByteSize ∧ cause = .nameTooLong) ∨
      (name.utf8ByteSize ≤ 32 ∧ name ∉ definedNames all ∧ cause = .unknownLabel name) := by
  by_cases hshort : name.utf8ByteSize ≤ 32
  · have hnot : ¬ 32 < name.utf8ByteSize := Nat.not_lt.mpr hshort
    rw [Emission.resolve, Layout.shortName_of_le hshort, ok_bind]
    simp only [offsetOf?_labelTable, hnot, hshort, false_and, false_or, true_and]
    by_cases hname : name ∈ definedNames all
    · rw [if_pos hname]
      show (.ok (offsetWord all name) : Except Cause UInt16) = .error cause ↔ _
      simp only [reduceCtorEq, hname, not_true_eq_false, false_and]
    · rw [if_neg hname, and_iff_right hname]
      show (.error (.unknownLabel name) : Except Cause UInt16) = .error cause ↔ _
      rw [Except.error.injEq, eq_comm]
  · have hlong : 32 < name.utf8ByteSize := Nat.not_le.mp hshort
    rw [Emission.resolve, Layout.shortName_of_lt hlong, error_bind, Except.error.injEq]
    simp only [hlong, hshort, true_and, false_and, or_false]
    exact eq_comm

/-- A command is not resolved because of its label, and then nothing of it is written. -/
theorem unwritten_of_resolve_eq_error
    (h : Draft.resolve (Emission.resolve (labelTable all)) (.command c) = .error cause) :
    Unwritten all done room c cause [] := by
  cases c with
  | plain i straight => cases h
  | jump condition label =>
    have hresolve : Emission.resolve (labelTable all) label = .error cause := by
      rw [Draft.resolve] at h
      cases hlabel : Emission.resolve (labelTable all) label with
      | error cause' =>
        rw [hlabel, error_bind] at h
        exact congrArg _ (Except.error.inj h)
      | ok offset =>
        rw [hlabel] at h
        cases h
    rcases resolve_labelTable_eq_error_iff.mp hresolve with
      ⟨hlong, rfl⟩ | ⟨hshort, hunknown, rfl⟩
    · exact .nameTooLong label rfl hlong
    · exact .unknownLabel label rfl hshort hunknown

/-! ### What a failed emission leaves -/

/-- What a command leaves that is not written. -/
theorem Emission.addDraft_command_eq_error (hall : LaysOut capacity all)
    (he : e.Holds all done buffer) (hshort : codeWidth done + c.width ≤ 65535)
    (h : (e.addDraft (some (.command c))).1 = .error cause) :
    ∃ bytes, Unwritten all done buffer.size c cause bytes ∧
      (e.addDraft (some (.command c))).2.writer.size = canvasSize all ∧
      (e.addDraft (some (.command c))).2.writer.Holds buffer
        (Bytecode.codeOf (instructions (offsetWord all) done) ++ bytes) := by
  simp only [addDraft, he.labels] at h ⊢
  cases hresolve : Draft.resolve (resolve (labelTable all)) (.command c) with
  | error cause' =>
    simp only [hresolve, Except.error.injEq] at h ⊢
    subst h
    refine ⟨[], unwritten_of_resolve_eq_error hresolve, he.size, ?_⟩
    rw [List.append_nil]
    exact he.code
  | ok s =>
    obtain ⟨hlabels, rfl⟩ := (resolve_command hall).mp hresolve
    simp only [hresolve] at h ⊢
    have hlength : (Bytecode.codeOf (instructions (offsetWord all) done)).length =
        codeWidth done := by
      rw [Bytecode.length_codeOf, widthOf_instructions]
    have hadd := he.code.add_cases (c.instruction (offsetWord all))
    rw [hlength, Command.width_instruction] at hadd
    rcases hadd with ⟨-, -, hok, -⟩ | ⟨-, hfull, hcause, hput⟩ | ⟨hlong, -⟩
    · rw [hok] at h
      cases h
    · rw [hcause] at h
      obtain rfl := Except.error.inj h
      refine ⟨_, .bufferTooSmall hlabels hfull, ?_, hput⟩
      rw [Image.Writer.add_size, he.size]
    · -- The layout has made sure that the code stays short.
      omega

/-- What a line leaves that is not emitted: it states a command, and the command is not written. -/
theorem Emission.emit_eq_error (hall : LaysOut capacity all) (hrest : all = done ++ line :: rest)
    (he : e.Holds all done buffer) (h : (e.emit line).1 = .error cause) :
    ∃ c bytes, line.command? = some c ∧ Unwritten all done buffer.size c cause bytes ∧
      (e.emit line).2.writer.size = canvasSize all ∧
      (e.emit line).2.writer.Holds buffer
        (Bytecode.codeOf (instructions (offsetWord all) done) ++ bytes) := by
  rw [emit_eq] at h ⊢
  obtain ⟨draft, hdraft⟩ := Line.exists_draft?_iff.mpr (hall.statements line (by simp [hrest]))
  rw [hdraft] at h ⊢
  rcases draft with _ | c | ⟨s, length, nonzero⟩
  · cases h
  · have hcommand : line.command? = some c := Line.command?_of_draft? hdraft
    obtain ⟨bytes, hleft⟩ :=
      addDraft_command_eq_error hall he (hall.command_short hrest hcommand) h
    exact ⟨c, bytes, hcommand, hleft⟩
  · cases h

theorem Emission.addLine_eq_error_iff :
    e.addLine line = (.error error, e') ↔
      ∃ cause, (e.emit line).1 = .error cause ∧ error = .onLine line.number cause ∧
        e' = (e.emit line).2 := by
  unfold addLine
  rw [Prod.mk.injEq, mapError_eq_error_iff]
  constructor
  · intro ⟨⟨cause, hcause, herror⟩, he'⟩
    exact ⟨cause, hcause, herror, he'.symm⟩
  · intro ⟨cause, hcause, herror, he'⟩
    exact ⟨⟨cause, hcause, herror⟩, he'.symm⟩

/-! ### All failures -/

/-- How assembly fails, with the error that it reports and what the buffer then holds. -/
inductive Fails (capacity : Nat) (lines : List Line) (buffer : Bytes) : Error → Bytes → Prop where
  /-- A line is refused by the layout of those before it. Nothing is written yet. -/
  | refused (done : List Line) (line : Line) (rest : List Line) (cause : Cause)
      (hlines : lines = done ++ line :: rest) (hrefuses : RefusesAt capacity done line cause) :
      Fails capacity lines buffer (.onLine line.number cause) buffer
  /-- All lines are laid out, and the buffer has no room for the header. -/
  | noHeader (l : Layout) (hlayout : layOutAll .ok lines (.empty capacity) = .ok l)
      (hroom : buffer.size < 4) : Fails capacity lines buffer ⟨none, .write .bufferTooSmall⟩ buffer
  /-- The lines before some line are emitted, and the command of this line is not written. -/
  | stopped (done : List Line) (line : Line) (rest : List Line) (cause : Cause) (c : Command)
      (bytes : List UInt8) (written : Bytes) (hlines : lines = done ++ line :: rest)
      (hstops : StopsAt capacity lines buffer done line cause)
      (hcommand : line.command? = some c) (hcause : Unwritten lines done buffer.size c cause bytes)
      (hwritten : written.toList = (canvasSize lines).headerBytes ++
        (Bytecode.codeOf (instructions (offsetWord lines) done) ++ bytes) ++
        buffer.toList.drop (4 + codeWidth done + bytes.length)) :
      Fails capacity lines buffer (.onLine line.number cause) written

theorem Emission.start_eq_error_iff {l : Layout} :
    start l buffer = .error error ↔
      buffer.size < 4 ∧ error = ⟨none, .write .bufferTooSmall⟩ := by
  unfold start
  by_cases hroom : 4 ≤ buffer.size
  · obtain ⟨w, hw, -⟩ := Image.Writer.start_of_le hroom
    simp only [hw, reduceCtorEq, Nat.not_lt.mpr hroom, false_and]
  · have hlt := Nat.not_le.mp hroom
    simp only [Image.Writer.start_of_lt hlt, Except.error.injEq, hlt, true_and]
    exact eq_comm

/-- Assembly fails while lines are laid out, before the first of them is emitted, or behind it. -/
theorem assemble_eq_error_iff_stage :
    assemble capacity lines buffer = (.error error, written) ↔
      (layOutAll .ok lines (.empty capacity) = .error error ∧ written = buffer) ∨
      ∃ l, layOutAll .ok lines (.empty capacity) = .ok l ∧
        ((Emission.start l buffer = .error error ∧ written = buffer) ∨
          ∃ e₀ e, Emission.start l buffer = .ok e₀ ∧ emitAll .ok lines e₀ = (.error error, e) ∧
            written = e.writer.buffer) := by
  unfold assemble assembleWith
  cases hlayout : layOutAll .ok lines (.empty capacity) with
  | error error' => simp [eq_comm]
  | ok l =>
    cases hstart : Emission.start l buffer with
    | error error' => simp [hstart, eq_comm]
    | ok e₀ =>
      rcases hemit : emitAll .ok lines e₀ with ⟨error' | ⟨⟩, e⟩
      · simp [hstart, hemit, Except.map, eq_comm]
      · simp [hstart, hemit, Except.map]

/-- Emitted lines are held by the emission, whatever comes behind them. -/
theorem holds_of_emitAll {l : Layout} (hlayout : layOutAll .ok lines (.empty capacity) = .ok l)
    (hstart : Emission.start l buffer = .ok e₀) (hlines : lines = done ++ rest)
    (hdone : emitAll .ok done e₀ = (.ok (), e)) :
    LaysOut capacity lines ∧ e.Holds lines done buffer := by
  obtain ⟨hall, hl⟩ := layOutAll_eq_ok_iff.mp hlayout
  obtain ⟨hroom, he₀⟩ := holds_of_start hl hstart
  obtain ⟨-, he⟩ := (emitAll_eq_ok_iff_of_holds hall hlines (emits_nil hroom) he₀).mp hdone
  exact ⟨hall, he⟩

/-- What a failed emission leaves in the buffer. -/
theorem Emission.toList_buffer_of_holds (hsize : e.writer.size = canvasSize lines)
    (hcode : e.writer.Holds buffer
      (Bytecode.codeOf (instructions (offsetWord lines) done) ++ bytes)) :
    e.writer.buffer.toList = (canvasSize lines).headerBytes ++
      (Bytecode.codeOf (instructions (offsetWord lines) done) ++ bytes) ++
      buffer.toList.drop (4 + codeWidth done + bytes.length) := by
  rw [hcode.contents, hcode.used, hsize, List.length_append, Bytecode.length_codeOf,
    widthOf_instructions, Nat.add_assoc]

/-- **Failed assembly.** Assembly fails with an error exactly as `Fails` tells. If laying out
refuses a line, the first such line is reported with its number, and the buffer is as it was. Else,
if the buffer is shorter than a header, this is reported without a line, and the buffer is as it
was. Else the first line that cannot be emitted is reported with its number, for one of the three
causes of `Unwritten`. The buffer then has the final size in its header, behind it the code of the
lines before and as much of the failed instruction as fitted, and for the rest what it held at
first. -/
theorem assemble_eq_error_iff (capacity : Nat) (lines : List Line) (buffer : Bytes) (error : Error)
    (written : Bytes) : assemble capacity lines buffer = (.error error, written) ↔
      Fails capacity lines buffer error written := by
  rw [assemble_eq_error_iff_stage]
  constructor
  · intro h
    rcases h with ⟨hlayout, rfl⟩ | ⟨l, hlayout, ⟨hstart, rfl⟩ | ⟨e₀, e', hstart, hemit, rfl⟩⟩
    · obtain ⟨done, line, rest, cause, hlines, hrefuses, rfl⟩ :=
        layOutAll_eq_error_iff_refusesAt.mp hlayout
      exact .refused done line rest cause hlines hrefuses
    · obtain ⟨hroom, rfl⟩ := Emission.start_eq_error_iff.mp hstart
      exact .noHeader l hlayout hroom
    · obtain ⟨done, line, rest, e, hlines, hdone, hline⟩ := emitAll_eq_error_iff.mp hemit
      obtain ⟨cause, hcause, rfl, rfl⟩ := Emission.addLine_eq_error_iff.mp hline
      obtain ⟨hall, he⟩ := holds_of_emitAll hlayout hstart hlines hdone
      obtain ⟨c, bytes, hcommand, hunwritten, hsize, hcode⟩ :=
        Emission.emit_eq_error hall hlines he hcause
      exact .stopped done line rest cause c bytes _ hlines
        ⟨l, e₀, e, hlayout, hstart, hdone, hcause⟩ hcommand hunwritten
        (Emission.toList_buffer_of_holds hsize hcode)
  · intro h
    cases h with
    | refused done line rest cause hlines hrefuses =>
      exact .inl ⟨layOutAll_eq_error_iff_refusesAt.mpr
        ⟨done, line, rest, cause, hlines, hrefuses, rfl⟩, rfl⟩
    | noHeader l hlayout hroom =>
      exact .inr ⟨l, hlayout, .inl ⟨Emission.start_eq_error_iff.mpr ⟨hroom, rfl⟩, rfl⟩⟩
    | stopped done line rest cause c bytes _ hlines hstops hcommand hcause hwritten =>
      obtain ⟨l, e₀, e, hlayout, hstart, hdone, hemit⟩ := hstops
      obtain ⟨hall, he⟩ := holds_of_emitAll hlayout hstart hlines hdone
      obtain ⟨c', bytes', hcommand', hcause', hsize, hcode⟩ :=
        Emission.emit_eq_error hall hlines he hemit
      -- The cause fixes what is written of the command.
      obtain rfl : c' = c := Option.some.inj (hcommand'.symm.trans hcommand)
      obtain rfl : bytes' = bytes := hcause.unique hcause'
      have hbuffer := Emission.toList_buffer_of_holds hsize hcode
      have hline := Emission.addLine_eq_error_iff.mpr ⟨cause, hemit, rfl, rfl⟩
      have hall := emitAll_eq_error_iff.mpr ⟨done, line, rest, e, hlines, hdone, hline⟩
      exact .inr ⟨l, hlayout, .inr ⟨e₀, _, hstart, hall,
        Array.toList_inj.mp (hwritten.trans hbuffer.symm)⟩⟩

end TurtleVM.Assembly
