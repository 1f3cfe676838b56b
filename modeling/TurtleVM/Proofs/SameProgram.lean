import Mathlib.Data.List.Perm.Basic
import TurtleVM.Proofs.Assembling

/-! # Lines of the same program

What lines are assembled to depends on little of them: their commands in order, the names that they
define and where these stand, and the sides that they set, in any order. `SameProgram` says that
lines agree in all this, and then they are assembled to the same image or not at all:
`SameProgram.assemble_eq_ok`.

The relation is an equivalence, and it is kept when further lines are put before or behind, so that
a change to a program can be looked at on its own.
-/

namespace TurtleVM.Assembly

variable {lines lines' rest rest' : List Line} {line line' : Line} {name : String}

/-! ### Places in lines put together -/

/-- Behind other lines, a name stands where they end, unless they define it. -/
theorem labelOffset_append (lines rest : List Line) (name : String) :
    labelOffset (lines ++ rest) name =
      if name ∈ definedNames lines then labelOffset lines name
      else codeWidth lines + labelOffset rest name := by
  unfold labelOffset
  split
  · rename_i h
    rw [linesBefore_append_of_mem _ _ _ h]
  · rename_i h
    rw [linesBefore_append_of_all _ _ h, codeWidth_append]

/-- In a line alone, a name that it does not define stands behind it. -/
theorem labelOffset_singleton (line : Line) (name : String) :
    labelOffset [line] name = if name ∈ line.labels then 0 else codeWidth [line] := by
  unfold labelOffset
  split
  · rename_i h
    rw [linesBefore_cons_of_mem _ h]
    rfl
  · rename_i h
    rw [linesBefore_cons_of_not_mem _ h]
    rfl

/-! ### The same program -/

/-- Every line can be read as a statement. -/
def AllRead (lines : List Line) : Prop := ∀ line ∈ lines, ∃ draft, line.draft? = .ok draft

theorem allRead_append : AllRead (lines ++ rest) ↔ AllRead lines ∧ AllRead rest :=
  List.forall_mem_append

/-- The lines agree in everything that matters to what they are assembled to. -/
structure SameProgram (lines lines' : List Line) : Prop where
  allRead : AllRead lines ↔ AllRead lines'
  definedNames : definedNames lines = definedNames lines'
  commands : commands lines = commands lines'
  /-- A side is set to the same lengths, in any order. -/
  sideLengths : ∀ s, (sideLengths s lines).Perm (sideLengths s lines')
  labelOffset : ∀ name, labelOffset lines name = labelOffset lines' name

namespace SameProgram

theorem refl (lines : List Line) : SameProgram lines lines :=
  ⟨Iff.rfl, rfl, rfl, fun _ => .rfl, fun _ => rfl⟩

theorem symm (h : SameProgram lines lines') : SameProgram lines' lines :=
  ⟨h.allRead.symm, h.definedNames.symm, h.commands.symm, fun s => (h.sideLengths s).symm,
    fun name => (h.labelOffset name).symm⟩

theorem trans {lines'' : List Line} (h : SameProgram lines lines')
    (h' : SameProgram lines' lines'') : SameProgram lines lines'' :=
  ⟨h.allRead.trans h'.allRead, h.definedNames.trans h'.definedNames,
    h.commands.trans h'.commands, fun s => (h.sideLengths s).trans (h'.sideLengths s),
    fun name => (h.labelOffset name).trans (h'.labelOffset name)⟩

theorem codeWidth_eq (h : SameProgram lines lines') : codeWidth lines = codeWidth lines' :=
  congrArg totalWidth h.commands

/-- Put together, lines of the same programs are lines of the same program. -/
theorem append (h : SameProgram lines lines') (h' : SameProgram rest rest') :
    SameProgram (lines ++ rest) (lines' ++ rest') where
  allRead := by rw [allRead_append, allRead_append, h.allRead, h'.allRead]
  definedNames := by
    rw [definedNames_append, definedNames_append, h.definedNames, h'.definedNames]
  commands := by rw [commands_append, commands_append, h.commands, h'.commands]
  sideLengths s := by
    rw [sideLengths_append, sideLengths_append]
    exact (h.sideLengths s).append (h'.sideLengths s)
  labelOffset name := by
    rw [labelOffset_append, labelOffset_append, h.definedNames, h.labelOffset, h.codeWidth_eq,
      h'.labelOffset]

/-! ### Single lines -/

/-- Only the names and the statement of a line matter. -/
theorem of_line (hlabels : line.labels = line'.labels) (hdraft : line.draft? = line'.draft?) :
    SameProgram [line] [line'] := by
  have hcommand : line.command? = line'.command? := by rw [Line.command?, hdraft, Line.command?]
  have hside (s : Side) : line.sideLength? s = line'.sideLength? s := by
    rw [Line.sideLength?, hdraft, Line.sideLength?]
  have hcommands : Assembly.commands [line] = Assembly.commands [line'] := by
    rw [commands_singleton, commands_singleton, hcommand]
  refine ⟨?_, ?_, hcommands, fun s => ?_, fun name => ?_⟩
  · unfold AllRead
    rw [List.forall_mem_singleton, List.forall_mem_singleton, hdraft]
  · rw [definedNames_singleton, definedNames_singleton, hlabels]
  · rw [sideLengths_singleton, sideLengths_singleton, hside]
  · rw [labelOffset_singleton, labelOffset_singleton, hlabels, codeWidth, hcommands, codeWidth]

/-- A line that defines and states nothing can be left out. -/
theorem of_silent (hlabels : line.labels = []) (hdraft : line.draft? = .ok none) :
    SameProgram [] [line] := by
  have hcommand : line.command? = none := Line.command?_of_draft? hdraft
  refine ⟨?_, ?_, ?_, fun s => ?_, fun name => ?_⟩
  · unfold AllRead
    rw [List.forall_mem_singleton]
    simp [hdraft]
  · rw [definedNames_singleton, hlabels]
    rfl
  · rw [commands_singleton, hcommand]
    rfl
  · have hside : line.sideLength? s = none := Line.sideLength?_of_draft? hdraft s
    rw [sideLengths_singleton, hside]
    exact .rfl
  · rw [labelOffset_singleton, codeWidth_of_no_command hcommand, ite_self]
    rfl

/-- A line without names and commands can stand before other lines or behind them. -/
theorem of_move (hlabels : line.labels = []) (hcommand : line.command? = none)
    (lines : List Line) : SameProgram (line :: lines) (lines ++ [line]) := by
  rw [← List.singleton_append]
  have hnames : Assembly.definedNames [line] = [] := by rw [definedNames_singleton, hlabels]
  have hcommands : Assembly.commands [line] = [] := by
    rw [commands_singleton, hcommand]
    rfl
  have hoffset (name : String) : Assembly.labelOffset [line] name = 0 := by
    rw [labelOffset_singleton, codeWidth_of_no_command hcommand, ite_self]
  refine ⟨?_, ?_, ?_, fun s => ?_, fun name => ?_⟩
  · rw [allRead_append, allRead_append, and_comm]
  · rw [definedNames_append, definedNames_append, hnames, List.append_nil]
    rfl
  · rw [commands_append, commands_append, hcommands, List.append_nil]
    rfl
  · rw [sideLengths_append, sideLengths_append]
    exact List.perm_append_comm
  · rw [labelOffset_append, hnames, if_neg List.not_mem_nil, codeWidth_of_no_command hcommand,
      Nat.zero_add, labelOffset_append]
    split
    · rfl
    · -- A name that no line defines stands behind all of them.
      rename_i hname
      rw [hoffset, Nat.add_zero]
      unfold Assembly.labelOffset
      rw [← List.append_nil lines, linesBefore_append_of_all _ _ hname]
      rfl

/-! ### Assembling -/

/-- A side that is set at most once is set to the same length. -/
theorem sideLengths_eq (h : SameProgram lines lines') {s : Side}
    (honce : (Assembly.sideLengths s lines).length ≤ 1) :
    Assembly.sideLengths s lines = Assembly.sideLengths s lines' := by
  have hperm := h.sideLengths s
  match hlengths : Assembly.sideLengths s lines with
  | [] =>
    rw [hlengths] at hperm
    exact (List.nil_perm.mp hperm).symm
  | [length] =>
    rw [hlengths] at hperm
    exact List.singleton_perm.mp hperm
  | _ :: _ :: _ =>
    rw [hlengths] at honce
    exact absurd honce (by simp)

variable {capacity room : Nat}

theorem laysOut (h : SameProgram lines lines') (hlines : LaysOut capacity lines) :
    LaysOut capacity lines' where
  statements := by
    have hread : AllRead lines := fun line hline =>
      Line.exists_draft?_iff.mpr (hlines.statements line hline)
    intro line hline
    exact Line.exists_draft?_iff.mp (h.allRead.mp hread line hline)
  names_short := h.definedNames ▸ hlines.names_short
  names_distinct := h.definedNames ▸ hlines.names_distinct
  names_fit := h.definedNames ▸ hlines.names_fit
  sides_once s := (h.sideLengths s).length_eq ▸ hlines.sides_once s
  code_short := h.codeWidth_eq ▸ hlines.code_short

theorem assembles (h : SameProgram lines lines') (hlines : Assembles capacity lines room) :
    Assembles capacity lines' room where
  toLaysOut := h.laysOut hlines.toLaysOut
  labels_defined := h.commands ▸ h.definedNames ▸ hlines.labels_defined
  buffer_long := h.codeWidth_eq ▸ hlines.buffer_long

theorem program_eq (h : SameProgram lines lines') : program lines = program lines' := by
  have hoffset : offsetWord lines = offsetWord lines' :=
    funext fun name => congrArg UInt16.ofNat (h.labelOffset name)
  rw [program, instructions, h.commands, hoffset]
  rfl

theorem canvasSize_eq (h : SameProgram lines lines')
    (honce : ∀ s, (Assembly.sideLengths s lines).length ≤ 1) :
    canvasSize lines = canvasSize lines' := by
  rw [canvasSize, h.sideLengths_eq (honce .width), h.sideLengths_eq (honce .height)]
  rfl

/-- Lines of the same program are assembled to the same image. -/
theorem assemble_eq_ok (h : SameProgram lines lines') {buffer written : Bytes}
    {d : Image.Descriptor} (hlines : assemble capacity lines buffer = (.ok d, written)) :
    assemble capacity lines' buffer = (.ok d, written) := by
  obtain ⟨hassembles, hd, hwritten⟩ := assembles_of_assemble hlines
  -- Success fixes what is written, and it is the same for both.
  obtain ⟨d', written', hlines'⟩ := exists_assemble_eq_ok (h.assembles hassembles)
  obtain ⟨-, hd', hwritten'⟩ := assembles_of_assemble hlines'
  rw [h.codeWidth_eq, h.canvasSize_eq hassembles.sides_once] at hd hwritten
  rw [h.program_eq] at hwritten
  rw [hlines', hd, hd', Array.toList_inj.mp (hwritten.trans hwritten'.symm)]

end SameProgram

end TurtleVM.Assembly
