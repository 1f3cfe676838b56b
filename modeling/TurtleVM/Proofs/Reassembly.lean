import TurtleVM.Proofs.AssembledCode
import TurtleVM.Proofs.ListingSource

/-! # A listing can be assembled again

The source of a listing states the program that is listed: its commands are the instructions, their
targets named by offset, and a name stands for just that offset because all bytes before it belong
to commands before it, `labelOffset_listed`. If all jumps land, every name is defined, and assembly
gives back the image: `listing_reassembles`.
-/

namespace TurtleVM.Assembly

open Bytecode WrittenLine

/-! ### Commands of instructions -/

namespace Command

theorem totalWidth_map_ofInstruction (is : List Instruction) :
    totalWidth (is.map ofInstruction) = widthOf is := by
  induction is with
  | nil => rfl
  | cons i is ih => rw [List.map_cons, totalWidth, ih, width_ofInstruction, widthOf_cons]

/-- No operand of a command defines a name. -/
theorem filterMap_definedName?_operands (i : Instruction) :
    (ofInstruction i).operands.filterMap Token.definedName? = [] := by
  cases i with
  | arithmetic _ _ rhs | jumpIf _ _ rhs _ => cases rhs <;> rfl
  | _ => rfl

end Command

theorem Mnemonic.names_mnemonic (o : Operation) : Names o.mnemonic (ofOperation o) := by
  cases o with
  | arithmetic f => cases f <;> decide +kernel
  | jumpIf c => cases c <;> decide +kernel
  | _ => decide +kernel

/-! ### What the lines state -/

section Lines

variable (names : List String) (number : Nat)

theorem draft?_side {s : Side} {length : UInt16} (nonzero : length ≠ 0) :
    Line.draft? ⟨number, (side s length).tokens⟩ = .ok (some (.side s length nonzero)) := by
  have hnames : Mnemonic.Names s.text (.directive s) := by cases s <;> decide +kernel
  exact Line.draft?_eq_some_iff.mpr ⟨s.text, ⟨[], rfl⟩, hnames⟩

theorem draft?_instructionLine (l : Located) :
    Line.draft? ⟨number, (instructionLine names l).tokens⟩ =
      .ok (some (.command (.ofInstruction l.instruction))) := by
  have hnames : Mnemonic.Names l.instruction.operation.mnemonic
      (.ofOperation (Command.ofInstruction l.instruction).operation) := by
    rw [Command.operation_ofInstruction]
    exact Mnemonic.names_mnemonic _
  rw [Line.draft?_eq_some_iff, instructionLine]
  split
  · exact ⟨_, ⟨[offsetName l.offset], rfl⟩, hnames⟩
  · exact ⟨_, ⟨[], rfl⟩, hnames⟩

/-- Every line of a program can be read, and none sets a side of the canvas. -/
theorem draft?_programLines (offset : Nat) (is : List Instruction) :
    ∀ line ∈ numbered number (programLines names offset is),
      ∃ draft, line.draft? = .ok draft ∧ ∀ s, line.sideLength? s = none := by
  induction is generalizing offset number with
  | nil =>
    rw [programLines, endLines]
    split
    · intro line hline
      obtain rfl := List.mem_singleton.mp hline
      exact ⟨none, rfl, fun _ => rfl⟩
    · intro line hline
      cases hline
  | cons i is ih =>
    intro line hline
    rcases List.mem_cons.mp hline with rfl | hline
    · have hdraft := draft?_instructionLine names number ⟨offset, i⟩
      exact ⟨_, hdraft, fun s => Line.sideLength?_of_draft? hdraft s⟩
    · exact ih _ _ line hline

theorem commands_programLines (offset : Nat) (is : List Instruction) :
    commands (numbered number (programLines names offset is)) = is.map .ofInstruction := by
  induction is generalizing offset number with
  | nil =>
    rw [programLines, endLines]
    split <;> rfl
  | cons i is ih =>
    have hdraft := draft?_instructionLine names number ⟨offset, i⟩
    have hcommand := Line.command?_of_draft? hdraft
    rw [programLines, numbered, commands, List.filterMap_cons_some hcommand, List.map_cons,
      ← ih (number + 1) (offset + i.width)]
    rfl

/-! ### Names of the program -/

/-- The offsets where instructions start, and that of the end. -/
def boundaries : (offset : Nat) → List Instruction → List Nat
  | offset, [] => [offset]
  | offset, i :: is => offset :: boundaries (offset + i.width) is

theorem le_of_mem_boundaries {t offset : Nat} {is : List Instruction}
    (h : t ∈ boundaries offset is) : offset ≤ t := by
  induction is generalizing offset with
  | nil => exact Nat.le_of_eq (List.mem_singleton.mp h).symm
  | cons i is ih =>
    rcases List.mem_cons.mp h with rfl | h
    · exact Nat.le_refl _
    · exact Nat.le_of_add_right_le (ih h)

theorem pairwise_boundaries (offset : Nat) (is : List Instruction) :
    (boundaries offset is).Pairwise (· < ·) := by
  induction is generalizing offset with
  | nil => exact List.pairwise_singleton _ _
  | cons i is ih =>
    refine List.pairwise_cons.mpr ⟨fun t ht => ?_, ih _⟩
    have hle := le_of_mem_boundaries ht
    have hpos := i.width_pos
    omega

theorem add_widthOf_take_mem_boundaries (offset : Nat) (is : List Instruction) (k : Nat) :
    offset + widthOf (is.take k) ∈ boundaries offset is := by
  induction is generalizing offset k with
  | nil =>
    rw [List.take_nil]
    exact List.mem_singleton.mpr rfl
  | cons i is ih =>
    cases k with
    | zero => exact List.mem_cons_self ..
    | succ k =>
      rw [List.take_succ_cons, widthOf_cons, ← Nat.add_assoc]
      exact List.mem_cons_of_mem _ (ih _ _)

/-- A jump lands on a boundary. -/
theorem mem_boundaries_of_lands {is : List Instruction} {target : UInt16} (h : Lands is target) :
    target.toNat ∈ boundaries 0 is := by
  rcases h with ⟨k, -, hk⟩ | hend
  · rw [hk, ← Nat.zero_add (widthOf _)]
    exact add_widthOf_take_mem_boundaries 0 is k
  · have hmem := add_widthOf_take_mem_boundaries 0 is is.length
    rwa [List.take_length, Nat.zero_add, ← hend] at hmem

theorem labels_instructionLine (l : Located) :
    Line.labels ⟨number, (instructionLine names l).tokens⟩ =
      if offsetName l.offset ∈ names then [offsetName l.offset] else [] := by
  have hinstruction :
      (WrittenLine.instruction l.instruction).tokens.filterMap Token.definedName? = [] :=
    Command.filterMap_definedName?_operands l.instruction
  rw [instructionLine]
  split
  · show offsetName l.offset ::
      (WrittenLine.instruction l.instruction).tokens.filterMap Token.definedName? = _
    rw [hinstruction]
  · exact hinstruction

theorem map_offsetName_filter_cons (offset : Nat) (os : List Nat) :
    ((offset :: os).filter fun o => offsetName o ∈ names).map offsetName =
      (if offsetName offset ∈ names then [offsetName offset] else []) ++
        (os.filter fun o => offsetName o ∈ names).map offsetName := by
  rw [List.filter_cons]
  by_cases h : offsetName offset ∈ names
  · rw [if_pos h, if_pos (decide_eq_true h)]
    rfl
  · rw [if_neg h, if_neg (by simpa using h)]
    rfl

/-- Each boundary that is named is defined, in order. -/
theorem definedNames_programLines (offset : Nat) (is : List Instruction) :
    definedNames (numbered number (programLines names offset is)) =
      ((boundaries offset is).filter fun o => offsetName o ∈ names).map offsetName := by
  induction is generalizing offset number with
  | nil =>
    rw [programLines, endLines, boundaries, map_offsetName_filter_cons]
    split <;> rfl
  | cons i is ih =>
    rw [programLines, numbered, definedNames, List.flatMap_cons, labels_instructionLine,
      boundaries, map_offsetName_filter_cons, ← ih (number + 1) (offset + i.width)]
    rfl

/-! ### Places of names -/

variable {names} in
/-- Before the line of a named boundary stand just the commands of the bytes before it. -/
theorem add_codeWidth_linesBefore {t offset : Nat} {is : List Instruction}
    (ht : t ∈ boundaries offset is) (hname : offsetName t ∈ names) :
    offset + codeWidth (linesBefore (offsetName t)
      (numbered number (programLines names offset is))) = t := by
  induction is generalizing offset number with
  | nil =>
    obtain rfl := List.mem_singleton.mp ht
    rw [programLines, endLines, if_pos hname, numbered,
      linesBefore_cons_of_mem _ (List.mem_singleton.mpr rfl)]
    rfl
  | cons i is ih =>
    have hlabels := labels_instructionLine names number ⟨offset, i⟩
    rw [programLines, numbered]
    rcases List.mem_cons.mp ht with rfl | ht
    · -- The name is defined on the first line.
      rw [if_pos hname] at hlabels
      rw [linesBefore_cons_of_mem _ (by rw [hlabels]; exact List.mem_singleton.mpr rfl)]
      rfl
    · have hle := le_of_mem_boundaries ht
      have hpos := i.width_pos
      have hnot : offsetName t ∉
          Line.labels ⟨number, (instructionLine names ⟨offset, i⟩).tokens⟩ := by
        rw [hlabels]
        intro hmem
        split at hmem
        · have heq := offsetName_inj (List.mem_singleton.mp hmem)
          have heq : t = offset := heq
          omega
        · cases hmem
      have hcommand := Line.command?_of_draft? (draft?_instructionLine names number ⟨offset, i⟩)
      rw [linesBefore_cons_of_not_mem _ hnot, codeWidth_cons, codeWidth_of_command hcommand,
        Command.width_ofInstruction, ← Nat.add_assoc]
      exact ih (number + 1) ht

end Lines

/-! ### The listed program -/

/-- The lines of a listing's source as tokens. -/
def listed (names : List String) (size : CanvasSize) (is : List Instruction) : List Line :=
  numbered 1 (listedLines names size is)

section Listed

variable {names : List String} {size : CanvasSize} {is : List Instruction}

theorem listed_eq : listed names size is =
    ⟨1, (side .width size.width).tokens⟩ :: ⟨2, (side .height size.height).tokens⟩ ::
      numbered 3 (programLines names 0 is) := rfl

theorem command?_side (number : Nat) {s : Side} {length : UInt16} (nonzero : length ≠ 0) :
    Line.command? ⟨number, (side s length).tokens⟩ = none :=
  Line.command?_of_draft? (draft?_side number nonzero)

theorem sideLength?_side_self (number : Nat) (s : Side) {length : UInt16} (nonzero : length ≠ 0) :
    Line.sideLength? s ⟨number, (side s length).tokens⟩ = some length :=
  (Line.sideLength?_of_draft? (draft?_side number nonzero) s).trans (if_pos rfl)

theorem sideLength?_side_of_ne (number : Nat) {s t : Side} (h : s ≠ t) {length : UInt16}
    (nonzero : length ≠ 0) : Line.sideLength? t ⟨number, (side s length).tokens⟩ = none :=
  (Line.sideLength?_of_draft? (draft?_side number nonzero) t).trans (if_neg h)

/-- The names that are defined are those of the boundaries that jumps name. -/
theorem definedNames_listed : definedNames (listed names size is) =
    ((boundaries 0 is).filter fun o => offsetName o ∈ names).map offsetName :=
  definedNames_programLines names 3 0 is

theorem mem_names_of_mem_definedNames {name : String}
    (h : name ∈ definedNames (listed names size is)) : name ∈ names := by
  rw [definedNames_listed] at h
  obtain ⟨o, ho, rfl⟩ := List.mem_map.mp h
  simpa using (List.mem_filter.mp ho).2

theorem mem_definedNames {t : Nat} (ht : t ∈ boundaries 0 is) (hname : offsetName t ∈ names) :
    offsetName t ∈ definedNames (listed names size is) := by
  rw [definedNames_listed]
  exact List.mem_map.mpr ⟨t, List.mem_filter.mpr ⟨ht, by simpa using hname⟩, rfl⟩

theorem nodup_definedNames : (definedNames (listed names size is)).Nodup := by
  rw [definedNames_listed]
  -- Boundaries go up, and different offsets have different names.
  refine List.pairwise_map.mpr (((pairwise_boundaries 0 is).filter _).imp fun hlt heq => ?_)
  exact absurd (offsetName_inj heq) (Nat.ne_of_lt hlt)

section Sides

variable (hwidth : size.width ≠ 0) (hheight : size.height ≠ 0)

include hwidth hheight

theorem commands_listed : commands (listed names size is) = is.map .ofInstruction := by
  rw [listed_eq, commands, List.filterMap_cons_none (command?_side 1 hwidth),
    List.filterMap_cons_none (command?_side 2 hheight)]
  exact commands_programLines names 3 0 is

theorem codeWidth_listed : codeWidth (listed names size is) = widthOf is := by
  rw [codeWidth, commands_listed hwidth hheight, Command.totalWidth_map_ofInstruction]

variable (names is) in
theorem sideLengths_listed : sideLengths .width (listed names size is) = [size.width] ∧
    sideLengths .height (listed names size is) = [size.height] := by
  have hnone (s : Side) : sideLengths s (numbered 3 (programLines names 0 is)) = [] := by
    refine List.filterMap_eq_nil_iff.mpr fun line hline => ?_
    obtain ⟨draft, -, hside⟩ := draft?_programLines names 3 0 is line hline
    exact hside s
  have hother : Side.width ≠ Side.height := by decide
  constructor
  · rw [listed_eq, sideLengths,
      List.filterMap_cons_some (sideLength?_side_self 1 .width hwidth),
      List.filterMap_cons_none (sideLength?_side_of_ne 2 hother.symm hheight)]
    exact congrArg _ (hnone .width)
  · rw [listed_eq, sideLengths,
      List.filterMap_cons_none (sideLength?_side_of_ne 1 hother hwidth),
      List.filterMap_cons_some (sideLength?_side_self 2 .height hheight)]
    exact congrArg _ (hnone .height)

theorem canvasSize_listed : canvasSize (listed names size is) = size := by
  obtain ⟨hwidths, hheights⟩ := sideLengths_listed names is hwidth hheight
  rw [canvasSize, hwidths, hheights]
  rfl

/-- Every line of the source can be read. -/
theorem exists_draft?_listed :
    ∀ line ∈ listed names size is, ∃ draft, line.draft? = .ok draft := by
  rw [listed_eq, List.forall_mem_cons, List.forall_mem_cons]
  refine ⟨⟨_, draft?_side 1 hwidth⟩, ⟨_, draft?_side 2 hheight⟩, fun line hline => ?_⟩
  obtain ⟨draft, hdraft, -⟩ := draft?_programLines names 3 0 is line hline
  exact ⟨draft, hdraft⟩

/-- The name of a boundary stands for that offset. -/
theorem labelOffset_listed {t : Nat} (ht : t ∈ boundaries 0 is) (hname : offsetName t ∈ names) :
    labelOffset (listed names size is) (offsetName t) = t := by
  have hplace := add_codeWidth_linesBefore 3 ht hname
  rw [labelOffset, listed_eq, linesBefore_cons_of_not_mem _ List.not_mem_nil,
    linesBefore_cons_of_not_mem _ List.not_mem_nil, codeWidth_cons,
    codeWidth_of_no_command (command?_side 1 hwidth), codeWidth_cons,
    codeWidth_of_no_command (command?_side 2 hheight)]
  omega

/-- If the names of all jumps are defined where they land, the source states the program. -/
theorem program_listed (hjumps : JumpsLand is)
    (hnames : ∀ i ∈ is, ∀ target, i.jumpTarget? = some target →
      Instruction.targetName target ∈ names) : program (listed names size is) = is := by
  rw [program, instructions, commands_listed hwidth hheight, List.map_map]
  refine (List.map_congr_left fun i hi => ?_).trans (List.map_id is)
  refine Command.instruction_ofInstruction fun target htarget => ?_
  have ht := mem_boundaries_of_lands (hjumps i hi target htarget)
  have hoffset := labelOffset_listed hwidth hheight ht (hnames i hi target htarget)
  rw [offsetWord, targetName_eq, hoffset]
  exact UInt16.ofNat_toNat

end Sides

end Listed

/-! ### Assembling the source -/

/-- The names that the jumps of a program have for their targets. -/
def targetNames (is : List Instruction) : List String :=
  (is.filterMap Instruction.jumpTarget?).map Instruction.targetName

theorem utf8ByteSize_ofList_le (cs : List Char) :
    (String.ofList cs).utf8ByteSize ≤ 4 * cs.length := by
  induction cs with
  | nil => exact Nat.le_refl 0
  | cons c cs ih =>
    have hc := c.utf8Size_le_four
    rw [String.ofList_cons, String.utf8ByteSize_append, String.utf8ByteSize_singleton,
      List.length_cons]
    omega

theorem utf8ByteSize_targetName_le (target : UInt16) :
    (Instruction.targetName target).utf8ByteSize ≤ 32 := by
  have hlength : (offsetName target.toNat).toList.length = 7 := by
    rw [toList_offsetName, List.length_cons, Text.length_hexadecimal_four target.toNat_lt]
  have hle := utf8ByteSize_ofList_le (offsetName target.toNat).toList
  rw [String.ofList_toList, hlength] at hle
  rw [targetName_eq]
  omega

variable {capacity : Nat} {size : CanvasSize} {is : List Instruction} {code buffer : Bytes}

theorem mem_targetNames {i : Instruction} (hi : i ∈ is) {target : UInt16}
    (htarget : i.jumpTarget? = some target) : Instruction.targetName target ∈ targetNames is :=
  List.mem_map.mpr ⟨target, List.mem_filterMap.mpr ⟨i, hi, htarget⟩, rfl⟩

/-- There are at most as many definitions as different targets. -/
theorem length_definedNames_le :
    (definedNames (listed (targetNames is) size is)).length ≤
      (is.filterMap Instruction.jumpTarget?).eraseDups.length := by
  rw [← List.length_map Instruction.targetName]
  refine nodup_definedNames.length_le_of_subset fun name hname => ?_
  obtain ⟨target, htarget, rfl⟩ := List.mem_map.mp (mem_names_of_mem_definedNames hname)
  exact List.mem_map.mpr ⟨target, List.mem_eraseDups.mpr htarget, rfl⟩

/-- The source of a program whose jumps land can be assembled. -/
theorem assembles_listed (hwidth : size.width ≠ 0) (hheight : size.height ≠ 0)
    (hjumps : JumpsLand is) (hshort : widthOf is ≤ 65535)
    (hcapacity : (is.filterMap Instruction.jumpTarget?).eraseDups.length ≤ capacity) {room : Nat}
    (hroom : 4 + widthOf is ≤ room) :
    Assembles capacity (listed (targetNames is) size is) room where
  statements line hline :=
    Line.exists_draft?_iff.mp (exists_draft?_listed hwidth hheight line hline)
  names_short name hname := by
    obtain ⟨target, -, rfl⟩ := List.mem_map.mp (mem_names_of_mem_definedNames hname)
    exact utf8ByteSize_targetName_le target
  names_distinct := nodup_definedNames
  names_fit := Nat.le_trans length_definedNames_le hcapacity
  sides_once s := by
    obtain ⟨hwidths, hheights⟩ := sideLengths_listed (targetNames is) is hwidth hheight
    cases s with
    | width => rw [hwidths]; exact Nat.le_refl 1
    | height => rw [hheights]; exact Nat.le_refl 1
  code_short := by rwa [codeWidth_listed hwidth hheight]
  labels_defined c hc label hlabel := by
    rw [commands_listed hwidth hheight] at hc
    obtain ⟨i, hi, rfl⟩ := List.mem_map.mp hc
    rw [Command.label?_ofInstruction, Option.map_eq_some_iff] at hlabel
    obtain ⟨target, htarget, rfl⟩ := hlabel
    exact mem_definedNames (mem_boundaries_of_lands (hjumps i hi target htarget))
      (mem_targetNames hi htarget)
  buffer_long := by rwa [codeWidth_listed hwidth hheight]

/-- **A listing can be assembled again.** Verified code is listed with the size of its canvas, and
the offsets of the listing are made labels. If there is room for the labels and in the buffer, the
source is assembled to the header with that size, followed by just the code that was listed. -/
theorem listing_reassembles {n : Nat} (hwidth : size.width ≠ 0) (hheight : size.height ≠ 0)
    (hverify : verify code = .ok n) (hshort : code.size ≤ 65535)
    (hcapacity : (jumpTargets code).eraseDups.length ≤ capacity)
    (hroom : 4 + code.size ≤ buffer.size) :
    ∃ written,
      assembleSource capacity (listingSource size code) buffer =
        (.ok ⟨4 + code.size, size⟩, written) ∧
      written.toList =
        size.headerBytes ++ code.toList ++ buffer.toList.drop (4 + code.size) := by
  obtain ⟨is, -, his, hjumps⟩ := verify_eq_ok_iff.mp hverify
  have hsize := size_of_toList_eq his
  have htargets : jumpTargets code = is.filterMap Instruction.jumpTarget? := by
    rw [jumpTargets, walked_of_toList_eq his]
  rw [htargets] at hcapacity
  have hsource : listingSource size code = source (listedLines (targetNames is) size is) := by
    rw [listingSource_eq his hshort, htargets]
    rfl
  rw [hsize] at hshort hroom
  obtain ⟨d, written, hassemble⟩ :=
    exists_assemble_eq_ok (assembles_listed hwidth hheight hjumps hshort hcapacity hroom)
  obtain ⟨-, rfl, hwritten⟩ := assembles_of_assemble hassemble
  have hprogram : program (listed (targetNames is) size is) = is :=
    program_listed hwidth hheight hjumps fun _ hi _ htarget => mem_targetNames hi htarget
  rw [codeWidth_listed hwidth hheight, canvasSize_listed hwidth hheight, ← hsize] at hassemble
  rw [codeWidth_listed hwidth hheight, canvasSize_listed hwidth hheight, ← hsize, hprogram,
    ← his] at hwritten
  refine ⟨written, ?_, hwritten⟩
  rw [hsource, assembleSource_source]
  exact hassemble

/-- A jump back and a jump to the end, with room for just two labels and no byte to spare. -/
theorem listing_reassembles_two_jumps :
    ∃ written,
      assembleSource 2 (listingSource ⟨64, 9⟩ #[6, 0, 7, 0, 0, 0, 7, 0, 10, 0])
        (Array.replicate 14 0) = (.ok ⟨14, 64, 9⟩, written) ∧
      written.toList = [64, 0, 9, 0, 6, 0, 7, 0, 0, 0, 7, 0, 10, 0] := by
  have hok : (verify #[6, 0, 7, 0, 0, 0, 7, 0, 10, 0]).isOk = true := by decide +kernel
  have htargets : (jumpTargets #[6, 0, 7, 0, 0, 0, 7, 0, 10, 0]).eraseDups.length ≤ 2 := by
    decide +kernel
  cases hverify : verify #[6, 0, 7, 0, 0, 0, 7, 0, 10, 0] with
  | error d =>
    rw [hverify] at hok
    cases hok
  | ok n =>
    exact listing_reassembles (by decide) (by decide) hverify (by decide) htargets (by decide)

end TurtleVM.Assembly
