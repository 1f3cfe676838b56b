import TurtleVM.Proofs.Assembling
import TurtleVM.Proofs.Verification

/-! # Assembled code is verified

What assembly writes behind the header is the code of a program whose jumps all land: the offset of
a label is the sum of the widths of the instructions before its definition, so a jump to it goes to
the instruction that stands there, or to the end. Verification therefore accepts the code, and the
image can be loaded with its header: `assembled_code_is_verified`.
-/

namespace TurtleVM.Assembly

/-! ### Lines with an instruction -/

/-- The mnemonic sets a side of the canvas. -/
def Mnemonic.isDirective : Mnemonic → Bool
  | directive _ => true
  | _ => false

theorem Mnemonic.isDirective_ofOperation (o : Operation) :
    (Mnemonic.ofOperation o).isDirective = false := by
  cases o <;> rfl

namespace Line

/-- The line has a mnemonic word that names no directive. -/
def carriesInstruction (line : Line) : Bool :=
  match line.instruction? with
  | none => false
  | some (word, _) => !(Mnemonic.ofWord? word).any Mnemonic.isDirective

variable {line : Line}

/-- Among the lines that can be read, those with an instruction are those that state a command. -/
theorem carriesInstruction_eq_isSome {draft : Option Draft} (h : line.draft? = .ok draft) :
    line.carriesInstruction = line.command?.isSome := by
  rw [command?_of_draft? h]
  cases draft with
  | none =>
    have hnone : line.instruction? = none := by
      cases hline : line.instruction? with
      | none => rfl
      | some instruction =>
        have hreads := instruction?_eq_some_iff.mp hline
        exact absurd hreads (draft?_eq_none_iff.mp h _ _)
    simp only [carriesInstruction, hnone]
    rfl
  | some d =>
    obtain ⟨word, hreads, hnames⟩ := draft?_eq_some_iff.mp h
    have hline := instruction?_eq_some_iff.mpr hreads
    have hword := Mnemonic.ofWord?_eq_some_iff.mpr hnames
    simp only [carriesInstruction, hline, hword, Option.any_some]
    cases d with
    | side s length nonzero => rfl
    | command c =>
      show (!(Mnemonic.ofOperation c.operation).isDirective) = true
      rw [Mnemonic.isDirective_ofOperation]
      rfl

end Line

/-- Lines that can be laid out have as many commands as there are lines with an instruction. -/
theorem LaysOut.countP_carriesInstruction {capacity : Nat} {lines : List Line}
    (h : LaysOut capacity lines) :
    lines.countP Line.carriesInstruction = (commands lines).length := by
  rw [commands, List.length_filterMap_eq_countP]
  refine List.countP_congr fun line hline => ?_
  obtain ⟨draft, hdraft⟩ := Line.exists_draft?_iff.mpr (h.statements line hline)
  rw [Line.carriesInstruction_eq_isSome hdraft]

/-! ### Jumps of the program -/

variable {capacity : Nat} {lines : List Line} {buffer written : Bytes} {d : Image.Descriptor}

@[simp] theorem Condition.jumpTarget?_jumpTo (condition : Condition) (target : UInt16) :
    (condition.jumpTo target).jumpTarget? = some target := by
  cases condition <;> rfl

/-- The offset of a label is the start of an instruction, or the end. -/
theorem lands_offsetWord (hshort : codeWidth lines ≤ 65535) (label : String) :
    Bytecode.Lands (program lines) (offsetWord lines label) := by
  have hindex : labelIndex lines label ≤ (program lines).length := by
    rw [length_program]
    exact labelIndex_le lines label
  have hoffset : (offsetWord lines label).toNat =
      Bytecode.widthOf ((program lines).take (labelIndex lines label)) := by
    rw [toNat_offsetWord _ hshort, widthOf_take_labelIndex]
  rcases Nat.lt_or_eq_of_le hindex with hlt | hend
  · exact .inl ⟨_, hlt, hoffset⟩
  · rw [hend, List.take_length] at hoffset
    exact .inr hoffset

theorem jumpsLand_program (hshort : codeWidth lines ≤ 65535) :
    Bytecode.JumpsLand (program lines) := by
  intro i hi target htarget
  obtain ⟨c, -, rfl⟩ := List.mem_map.mp hi
  cases c with
  | plain i straight =>
    -- Only jumps have a target.
    have hnone : i.jumpTarget? = some target := htarget
    rw [straight] at hnone
    cases hnone
  | jump condition label =>
    have hjump : (condition.jumpTo (offsetWord lines label)).jumpTarget? = some target := htarget
    rw [Condition.jumpTarget?_jumpTo] at hjump
    obtain rfl := Option.some.inj hjump
    exact lands_offsetWord hshort label

/-! ### Assembled images -/

theorem widthOf_program (lines : List Line) :
    Bytecode.widthOf (program lines) = codeWidth lines :=
  widthOf_instructions _ _

theorem length_headerBytes_append_program (size : CanvasSize) (lines : List Line) :
    (size.headerBytes ++ Bytecode.codeOf (program lines)).length = 4 + codeWidth lines := by
  rw [List.length_append, CanvasSize.length_headerBytes, Bytecode.length_codeOf, widthOf_program]
  rfl

/-- The written part of the buffer is the canvas size and the code of the program. -/
theorem extract_of_assemble (h : assemble capacity lines buffer = (.ok d, written)) :
    (written.extract 0 d.length).toList =
      (canvasSize lines).headerBytes ++ Bytecode.codeOf (program lines) := by
  obtain ⟨-, rfl, hwritten⟩ := assembles_of_assemble h
  rw [Array.toList_extract, hwritten, List.extract_eq_take_drop, List.drop_zero, Nat.sub_zero]
  exact List.take_left' (length_headerBytes_append_program _ lines)

/-- The image that assembly writes can be loaded. -/
theorem load_of_assemble (h : assemble capacity lines buffer = (.ok d, written)) :
    Image.load (written.extract 0 d.length) =
      .ok ⟨some (canvasSize lines), (Bytecode.codeOf (program lines)).toArray⟩ :=
  Image.load_of_toList_eq (extract_of_assemble h) (canvasSize_ne_zero lines)

/-- Behind the header stands the code of the program. -/
theorem code_of_assemble (h : assemble capacity lines buffer = (.ok d, written)) :
    (written.extract 4 d.length).toList = Bytecode.codeOf (program lines) := by
  have himage := extract_of_assemble h
  rw [Array.toList_extract, List.extract_eq_take_drop, List.drop_zero, Nat.sub_zero] at himage
  rw [Array.toList_extract, List.extract_eq_take_drop, ← List.drop_take, himage]
  exact List.drop_left' (by rfl)

/-- **Assembled code is verified.** If lines are assembled, the bytes written behind the header are
accepted by verification, which counts the lines with an instruction; and the written image can be
loaded with its header, which gives the size that assembly reports and just these bytes as code. -/
theorem assembled_code_is_verified (h : assemble capacity lines buffer = (.ok d, written)) :
    4 ≤ d.length ∧ d.length ≤ written.size ∧
      Bytecode.verify (written.extract 4 d.length) = .ok (lines.countP Line.carriesInstruction) ∧
      Image.load (written.extract 0 d.length) =
        .ok ⟨some d.size, written.extract 4 d.length⟩ := by
  obtain ⟨hassembles, rfl, hwritten⟩ := assembles_of_assemble h
  have hcode := code_of_assemble h
  have hshort : codeWidth lines ≤ 65535 := hassembles.code_short
  -- The header and the code are the front of the buffer.
  have hlong : 4 + codeWidth lines ≤ written.size := by
    rw [← Array.length_toList, hwritten, List.length_append, length_headerBytes_append_program]
    exact Nat.le_add_right _ _
  have hverify : Bytecode.verify (written.extract 4 (4 + codeWidth lines)) =
      .ok (program lines).length :=
    Bytecode.verify_of_jumpsLand hcode (jumpsLand_program hshort)
  rw [length_program, ← hassembles.countP_carriesInstruction] at hverify
  have harray : (Bytecode.codeOf (program lines)).toArray =
      written.extract 4 (4 + codeWidth lines) := by
    rw [← hcode]
  refine ⟨Nat.le_add_right _ _, hlong, hverify, ?_⟩
  rw [load_of_assemble h, harray]

/-- Two jumps to names that are defined in odd places: behind a number on a line that states
nothing, and in front of one on the last line. -/
def oddPlaces : List Line :=
  [⟨1, [.definition "top", .number 3]⟩,
    ⟨2, [.mnemonic "height", .number 9]⟩,
    ⟨3, [.mnemonic "JNZ", .register .a, .reference "end"]⟩,
    ⟨4, [.mnemonic "JNZ", .register .a, .reference "top"]⟩,
    ⟨5, [.number 1, .definition "end"]⟩]

theorem assembled_oddPlaces_is_verified :
    ∃ d written, assemble 2 oddPlaces (Array.replicate 16 0) = (.ok d, written) ∧
      Bytecode.verify (written.extract 4 d.length) = .ok 2 ∧
      Image.load (written.extract 0 d.length) =
        .ok ⟨some ⟨512, 9⟩, written.extract 4 d.length⟩ := by
  rcases h : assemble 2 oddPlaces (Array.replicate 16 0) with ⟨outcome, written⟩
  have houtcome : outcome.toOption = some ⟨12, 512, 9⟩ := by
    rw [show outcome = (assemble 2 oddPlaces (Array.replicate 16 0)).1 by rw [h]]
    decide +kernel
  cases outcome with
  | error e => cases houtcome
  | ok d =>
    have hd : d = ⟨12, 512, 9⟩ := Option.some.inj houtcome
    obtain ⟨-, -, hverify, hload⟩ := assembled_code_is_verified h
    have hcount : oddPlaces.countP Line.carriesInstruction = 2 := by decide +kernel
    rw [hcount] at hverify
    rw [hd] at hload hverify ⊢
    exact ⟨⟨12, 512, 9⟩, written, rfl, hverify, hload⟩

end TurtleVM.Assembly
