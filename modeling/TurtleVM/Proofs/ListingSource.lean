import TurtleVM.Bytecode.Listing
import TurtleVM.Proofs.Disassembly
import TurtleVM.Proofs.Drafts
import TurtleVM.Proofs.Lexing

/-! # A listing as a source

A listing becomes a source of assembly when its offsets are made labels: the offset in front of an
instruction is dropped, or turned into a definition if some jump names it, and a last line defines
the offset of the end if a jump goes there. `listingSource` does this to the text of a listing.

`listingSource_eq` tells what the lines of this source are read as: the directives of the canvas
size, and the instructions as commands whose jump targets are names.
-/

namespace TurtleVM

open Assembly

/-! ### From listing to source -/

namespace Bytecode

/-- The targets of the jumps in a code, in order. -/
def jumpTargets (code : Bytes) : List UInt16 := (walked code).filterMap Instruction.jumpTarget?

/-- The name that jumps have for an offset. -/
def offsetName (offset : Nat) : String := "@" ++ Text.hexadecimal 4 offset

/-- The line of a source for an instruction's line of a listing. The first six characters are the
offset, and two spaces follow. -/
def sourceLine (names : List String) (line : List Char) : List Char :=
  let name := '@' :: line.take 6
  if String.ofList name ∈ names then name ++ ':' :: ' ' :: line.drop 8 else line.drop 8

/-- The source of a listing. Its first two lines, which set the canvas size, stay as they are. -/
def listingSource (size : CanvasSize) (code : Bytes) : List Char :=
  let names := (jumpTargets code).map Instruction.targetName
  let lines := Text.lines (listing (some size) code).toList
  let ending := offsetName code.size
  let endingLine := if ending ∈ names then [ending.toList ++ [':']] else []
  (lines.take 2 ++ (lines.drop 2).map (sourceLine names) ++ endingLine).flatMap (· ++ ['\n'])

example : listingSource ⟨64, 9⟩ #[6, 0, 7, 0, 0, 0, 7, 0, 10, 0] =
    "WIDTH 64\nHEIGHT 9\n@0x0000: DEC A\nJNZ A @0x0000\nJNZ A @0x000a\n@0x000a:\n".toList := by
  decide +kernel

/-! ### Names of offsets -/

theorem targetName_eq (target : UInt16) :
    Instruction.targetName target = offsetName target.toNat := rfl

theorem toList_offsetName (offset : Nat) :
    (offsetName offset).toList = '@' :: (Text.hexadecimal 4 offset).toList := by
  simp only [offsetName, String.toList_append]
  rfl

theorem offsetName_inj {m n : Nat} (h : offsetName m = offsetName n) : m = n := by
  have hlist := congrArg String.toList h
  rw [toList_offsetName, toList_offsetName] at hlist
  exact Text.hexadecimal_inj (String.toList_inj.mp (List.cons.inj hlist).2)

/-- What holds of the sign in front, of the mark and of all digits holds of every character. -/
theorem forall_mem_offsetName {p : Char → Bool} (hat : p '@' = true) (hmark : p 'x' = true)
    (hdigit : ∀ d < 16, p d.digitChar = true) (offset : Nat) :
    ∀ c ∈ (offsetName offset).toList, p c = true := by
  rw [toList_offsetName]
  exact List.forall_mem_cons.mpr ⟨hat, Text.forall_mem_hexadecimal hmark hdigit⟩

theorem offsetName_ne_nil (offset : Nat) : (offsetName offset).toList ≠ [] := by
  rw [toList_offsetName]
  exact List.cons_ne_nil _ _

theorem colon_not_mem_offsetName (offset : Nat) : ':' ∉ (offsetName offset).toList := by
  intro h
  have hne := forall_mem_offsetName (p := (· != ':')) rfl rfl (by decide) offset _ h
  cases hne

theorem isWord_offsetName (offset : Nat) : Text.IsWord (offsetName offset).toList :=
  ⟨offsetName_ne_nil offset, forall_mem_offsetName rfl rfl (by decide) offset⟩

/-- The word that defines a name. -/
theorem isWord_offsetName_colon (offset : Nat) :
    Text.IsWord ((offsetName offset).toList ++ [':']) := by
  constructor
  · exact List.append_ne_nil_of_right_ne_nil _ (List.cons_ne_nil _ _)
  · intro c hc
    rcases List.mem_append.mp hc with hc | hc
    · exact (isWord_offsetName offset).plain c hc
    · obtain rfl := List.mem_singleton.mp hc
      rfl

end Bytecode

/-! ### Words of an instruction -/

namespace Assembly

open Bytecode

theorem toString_natCast (n : Nat) : toString (n : Int) = toString n := rfl

theorem Token.ofOperandWord_word (w : UInt16) :
    ofOperandWord (toString w.toNat).toList = .ok (.number w.toNat) := by
  have hlt := w.toNat_lt
  have hleast : Text.Literal.least < (w.toNat : Int) := by
    simp only [Text.Literal.least]
    omega
  have hgreatest : (w.toNat : Int) ≤ Text.Literal.greatest := by
    simp only [Text.Literal.greatest]
    omega
  rw [← toString_natCast]
  exact ofOperandWord_number hleast hgreatest

theorem Token.ofOperandWord_operand (rhs : Operand) :
    ofOperandWord rhs.text.toList = .ok (.ofOperand rhs) := by
  cases rhs with
  | immediate value => exact ofOperandWord_word value
  | register r => exact ofOperandWord_register r

theorem Token.ofOperandWord_targetName (target : UInt16) :
    ofOperandWord (Instruction.targetName target).toList =
      .ok (.reference (Instruction.targetName target)) := by
  rw [targetName_eq]
  have hname : (offsetName target.toNat).toList =
      '@' :: '0' :: 'x' :: ((Text.hexadecimal 4 target.toNat).toList.drop 2) := by
    rw [toList_offsetName, Text.toList_hexadecimal]
    rfl
  have hword := ofOperandWord_reference (offsetName_ne_nil target.toNat)
    (colon_not_mem_offsetName target.toNat) (by rw [hname]; rfl) (by rw [hname]; rfl)
  rwa [String.ofList_toList] at hword

/-- The operands of an instruction are read as those of its command. -/
theorem mapM_operandTexts (i : Instruction) :
    (i.operandTexts.map String.toList).mapM Token.ofOperandWord =
      .ok (Command.ofInstruction i).operands := by
  -- In every instruction each operand is of one of four kinds.
  cases i <;>
    simp only [Instruction.operandTexts, List.map_cons, List.map_nil, List.mapM_cons,
      List.mapM_nil, Token.ofOperandWord_register, Token.ofOperandWord_word,
      Token.ofOperandWord_operand, Token.ofOperandWord_targetName] <;>
    rfl

theorem length_operandTexts_le (i : Instruction) : i.operandTexts.length ≤ 3 := by
  cases i <;> simp only [Instruction.operandTexts, List.length_cons, List.length_nil] <;> omega

theorem isWord_registerText (r : Register) : Text.IsWord r.text.toList := by
  cases r <;> exact Text.isWord_of_all (by decide) (by decide)

theorem isWord_wordText (w : UInt16) : Text.IsWord (toString w.toNat).toList := by
  rw [← toString_natCast]
  exact Text.isWord_toString _

theorem isWord_operandText (rhs : Operand) : Text.IsWord rhs.text.toList := by
  cases rhs with
  | immediate value => exact isWord_wordText value
  | register r => exact isWord_registerText r

theorem isWord_targetName (target : UInt16) :
    Text.IsWord (Instruction.targetName target).toList :=
  isWord_offsetName target.toNat

theorem isWord_operandTexts (i : Instruction) :
    ∀ text ∈ i.operandTexts, Text.IsWord text.toList := by
  cases i <;>
    simp only [Instruction.operandTexts, List.forall_mem_cons, isWord_registerText,
      isWord_wordText, isWord_operandText, isWord_targetName, true_and] <;>
    exact List.forall_mem_nil _

theorem colon_not_mem_mnemonic (o : Operation) : ':' ∉ o.mnemonic.toList := by
  cases o with
  | arithmetic f => cases f <;> decide
  | jumpIf c => cases c <;> decide
  | _ => decide

theorem isWord_mnemonic (o : Operation) : Text.IsWord o.mnemonic.toList := by
  cases o with
  | arithmetic f => cases f <;> exact Text.isWord_of_all (by decide) (by decide)
  | jumpIf c => cases c <;> exact Text.isWord_of_all (by decide) (by decide)
  | _ => exact Text.isWord_of_all (by decide) (by decide)

/-! ### Lines of the source -/

namespace WrittenLine

/-- The directive that sets a side. -/
def side (s : Side) (length : UInt16) : WrittenLine where
  words := [s.text.toList, (toString length.toNat).toList]
  tokens := [.mnemonic s.text, .number length.toNat]
  isWord := by
    have hside : Text.IsWord s.text.toList := by
      cases s <;> exact Text.isWord_of_all (by decide) (by decide)
    rw [List.forall_mem_cons, List.forall_mem_singleton]
    exact ⟨hside, isWord_wordText length⟩
  lexed := by
    have hcolon : ':' ∉ s.text.toList := by cases s <;> decide
    show Line.lexWords (7 + 1) false _ = _
    rw [Line.lexWords_mnemonic hcolon (by simp), List.mapM_cons, Token.ofOperandWord_word,
      String.ofList_toList]
    rfl

theorem text_side (s : Side) (length : UInt16) :
    (side s length).text = (s.text ++ " " ++ toString length.toNat).toList := by
  show [' '].intercalate [s.text.toList, (toString length.toNat).toList] = _
  rw [List.intercalate_cons_cons, List.intercalate_singleton, String.toList_append,
    String.toList_append]
  rfl

/-- The definition of an offset's name. -/
def definition (offset : Nat) : WrittenLine where
  words := [(offsetName offset).toList ++ [':']]
  tokens := [.definition (offsetName offset)]
  isWord := List.forall_mem_singleton.mpr (isWord_offsetName_colon offset)
  lexed := by
    have hcolon := colon_not_mem_offsetName offset
    show Line.lexWords (7 + 1) false _ = _
    rw [Line.lexWords_definition (offsetName_ne_nil offset) hcolon, String.ofList_toList]
    rfl

theorem text_definition (offset : Nat) :
    (definition offset).text = (offsetName offset).toList ++ [':'] :=
  List.intercalate_singleton

/-- The words of an instruction fit on a line with room to spare. -/
theorem lexWords_instruction (i : Instruction) (room : Nat) :
    Line.lexWords (room + 4) false
        (i.operation.mnemonic.toList :: i.operandTexts.map String.toList) =
      .ok (.mnemonic i.operation.mnemonic :: (Command.ofInstruction i).operands) := by
  have hcolon : ':' ∉ i.operation.mnemonic.toList := colon_not_mem_mnemonic i.operation
  have hlength : (i.operandTexts.map String.toList).length ≤ room + 3 := by
    have hle := length_operandTexts_le i
    rw [List.length_map]
    omega
  rw [Line.lexWords_mnemonic hcolon hlength, mapM_operandTexts, String.ofList_toList]
  rfl

/-- An instruction. -/
def instruction (i : Instruction) : WrittenLine where
  words := i.operation.mnemonic.toList :: i.operandTexts.map String.toList
  tokens := .mnemonic i.operation.mnemonic :: (Command.ofInstruction i).operands
  isWord := by
    rw [List.forall_mem_cons, List.forall_mem_map]
    exact ⟨isWord_mnemonic i.operation, isWord_operandTexts i⟩
  lexed := lexWords_instruction i 4

/-- An instruction behind the definition of its offset's name. -/
def labelled (l : Located) : WrittenLine where
  words := ((offsetName l.offset).toList ++ [':']) :: (instruction l.instruction).words
  tokens := .definition (offsetName l.offset) :: (instruction l.instruction).tokens
  isWord := List.forall_mem_cons.mpr
    ⟨isWord_offsetName_colon l.offset, (instruction l.instruction).isWord⟩
  lexed := by
    have hcolon := colon_not_mem_offsetName l.offset
    show Line.lexWords (7 + 1) false _ = _
    rw [Line.lexWords_definition (offsetName_ne_nil l.offset) hcolon]
    simp only [instruction, lexWords_instruction _ 3, String.ofList_toList]
    rfl

end WrittenLine

section ProgramLines

variable (names : List String)

/-- The line of an instruction, which defines its offset's name if that is one of the names. -/
def instructionLine (l : Located) : WrittenLine :=
  if offsetName l.offset ∈ names then .labelled l else .instruction l.instruction

/-- The definition of the offset of the end, if its name is one of the names. -/
def endLines (offset : Nat) : List WrittenLine :=
  if offsetName offset ∈ names then [.definition offset] else []

/-- The lines of a program that starts at an offset. -/
def programLines : (offset : Nat) → List Instruction → List WrittenLine
  | offset, [] => endLines names offset
  | offset, i :: is => instructionLine names ⟨offset, i⟩ :: programLines (offset + i.width) is

/-- The lines of a program on a canvas. -/
def listedLines (size : CanvasSize) (is : List Instruction) : List WrittenLine :=
  .side .width size.width :: .side .height size.height :: programLines names 0 is

end ProgramLines

end Assembly

/-! ### The source of a program's listing -/

namespace Bytecode

theorem toList_text (i : Instruction) : i.text.toList = (WrittenLine.instruction i).text := by
  rw [Instruction.text, String.toList_intercalate]
  rfl

theorem toList_line (l : Located) : (Item.line (.ok l)).toList =
    (Text.hexadecimal 4 l.offset).toList ++ ' ' :: ' ' :: l.instruction.text.toList := by
  simp only [Item.line, String.toList_append, List.append_assoc]
  rfl

theorem isLine_line (l : Located) : Text.IsLine (Item.line (.ok l)).toList := by
  intro c hc
  rw [toList_line] at hc
  rcases List.mem_append.mp hc with hc | hc
  · exact .inr (Text.forall_mem_hexadecimal rfl (by decide) c hc)
  · rcases List.mem_cons.mp hc with hc | hc
    · exact .inl hc
    · rcases List.mem_cons.mp hc with hc | hc
      · exact .inl hc
      · rw [toList_text] at hc
        exact (WrittenLine.instruction l.instruction).isLine_text c hc

/-- In front of an instruction the offset is dropped or becomes a definition. -/
theorem sourceLine_line (names : List String) {l : Located} (h : l.offset < 65536) :
    sourceLine names (Item.line (.ok l)).toList = (instructionLine names l).text := by
  have hlength : (Text.hexadecimal 4 l.offset).toList.length = 6 :=
    Text.length_hexadecimal_four h
  have htake : (Item.line (.ok l)).toList.take 6 = (Text.hexadecimal 4 l.offset).toList := by
    rw [toList_line]
    exact List.take_left' hlength
  have hdrop : (Item.line (.ok l)).toList.drop 8 =
      (WrittenLine.instruction l.instruction).text := by
    rw [toList_line, ← toList_text, show 8 = 6 + 2 from rfl, ← List.drop_drop,
      List.drop_left' hlength]
    rfl
  have hname : String.ofList ('@' :: (Text.hexadecimal 4 l.offset).toList) =
      offsetName l.offset := by
    rw [← toList_offsetName, String.ofList_toList]
  rw [sourceLine, htake, hdrop, hname, instructionLine]
  split
  · show _ = [' '].intercalate
      (((offsetName l.offset).toList ++ [':']) :: (WrittenLine.instruction l.instruction).words)
    rw [WrittenLine.instruction, List.intercalate_cons_cons, ← toList_offsetName,
      List.append_assoc, List.append_assoc]
    rfl
  · rfl

variable {code : Bytes} {is : List Instruction} {size : CanvasSize}

/-- The text of a program's listing is cut into the lines it was put together from. -/
theorem lines_listing (h : code.toList = codeOf is) :
    Text.lines (listing (some size) code).toList =
      (WrittenLine.side .width size.width).text :: (WrittenLine.side .height size.height).text ::
        (locate 0 is).map fun l => (Item.line (.ok l)).toList := by
  have hclosed (line : String) : (line ++ "\n").toList = line.toList ++ ['\n'] := by
    rw [String.toList_append]
    rfl
  have hlines : (listingLines (some size) code).map String.toList =
      (WrittenLine.side .width size.width).text :: (WrittenLine.side .height size.height).text ::
        (locate 0 is).map fun l => (Item.line (.ok l)).toList := by
    rw [listingLines, walk_of_toList_eq h, WrittenLine.text_side, WrittenLine.text_side]
    simp only [Option.map_some, Option.getD_some, sizeLines, List.map_append, List.map_map]
    rfl
  have hlisting : (listing (some size) code).toList =
      ((listingLines (some size) code).map String.toList).flatMap (· ++ ['\n']) := by
    rw [listing, String.toList_join, List.flatMap_map, List.flatMap_map]
    simp only [hclosed]
  rw [hlisting, hlines]
  apply Text.lines_flatMap
  simp only [List.forall_mem_cons, List.forall_mem_map]
  exact ⟨WrittenLine.isLine_text _, WrittenLine.isLine_text _, fun l _ => isLine_line l⟩

/-- Line by line, the listing of a program becomes the lines of the program. -/
theorem map_sourceLine_append (names : List String) (offset : Nat)
    (h : offset + widthOf is < 65536) :
    ((locate offset is).map fun l => sourceLine names (Item.line (.ok l)).toList) ++
        (endLines names (offset + widthOf is)).map WrittenLine.text =
      (programLines names offset is).map WrittenLine.text := by
  induction is generalizing offset with
  | nil => rfl
  | cons i is ih =>
    rw [widthOf_cons, ← Nat.add_assoc] at h ⊢
    have hoffset : offset < 65536 := by omega
    rw [locate, List.map_cons, List.cons_append, ih _ h, sourceLine_line names hoffset,
      programLines, List.map_cons]

theorem map_text_endLines (names : List String) (offset : Nat) :
    (endLines names offset).map WrittenLine.text =
      if offsetName offset ∈ names then [(offsetName offset).toList ++ [':']] else [] := by
  rw [endLines]
  split
  · rw [List.map_cons, WrittenLine.text_definition, List.map_nil]
  · rfl

/-- The source of a program's listing has the lines of the program. -/
theorem listingSource_eq (h : code.toList = codeOf is) (hshort : code.size ≤ 65535) :
    listingSource size code =
      WrittenLine.source (listedLines ((jumpTargets code).map Instruction.targetName) size is) := by
  have hsize : 0 + widthOf is = code.size := by rw [Nat.zero_add, size_of_toList_eq h]
  have hmap := map_sourceLine_append ((jumpTargets code).map Instruction.targetName) 0
    (show 0 + widthOf is < 65536 by omega)
  rw [hsize, map_text_endLines] at hmap
  simp only [listingSource, lines_listing h, List.take_succ_cons, List.take_zero,
    List.drop_succ_cons, List.drop_zero, List.map_map]
  rw [WrittenLine.source, listedLines, List.map_cons, List.map_cons, ← hmap]
  rfl

end Bytecode

end TurtleVM
