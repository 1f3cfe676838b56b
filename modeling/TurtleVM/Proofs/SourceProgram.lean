import TurtleVM.Assembly.Layout
import TurtleVM.Proofs.Drafts

/-! # The program that lines state

Lines of assembly state commands, name places between them and set the sides of the canvas. This
file reads all of that off a list of lines without any table or buffer:

* `commands` — the commands in the order of their lines;
* `labelIndex` and `labelOffset` — where a name stands, as the number of commands on the lines
  before its definition and as the bytes that these take;
* `program` — the instructions of the commands, each name replaced by its offset.

`widthOf_take_labelIndex` tells that index and offset of a name are the same place.
-/

namespace TurtleVM.Assembly

/-! ### What a line states -/

namespace Line

/-- After its label definitions a line has a mnemonic word and operands. -/
def Reads (line : Line) (word : String) (operands : List Token) : Prop :=
  ∃ names : List String, line.tokens = names.map Token.definition ++ .mnemonic word :: operands

/-- After its label definitions a line has the mnemonic and the operands of a draft. -/
def States (line : Line) (d : Draft) : Prop :=
  ∃ word, line.Reads word d.operands ∧ Mnemonic.Names word d.mnemonic

/-- What a line states, if it has a mnemonic. -/
def draft? (line : Line) : Except Cause (Option Draft) :=
  match line.instruction? with
  | none => return none
  | some (word, operands) => return some (← Draft.ofWords word operands)

variable {line : Line} {word : String} {operands : List Token} {d : Draft}

theorem instruction?_eq_some_iff :
    line.instruction? = some (word, operands) ↔ line.Reads word operands := by
  unfold instruction? Reads
  -- Definitions are passed over one by one; the first other token decides.
  induction line.tokens with
  | nil => simp
  | cons token tokens ih =>
    cases token with
    | definition name =>
      rw [List.dropWhile_cons_of_pos rfl, ih]
      constructor
      · intro h
        obtain ⟨names, rfl⟩ := h
        exact ⟨name :: names, rfl⟩
      · intro ⟨names, h⟩
        cases names with
        | nil => cases h
        | cons name' names => exact ⟨names, (List.cons.inj h).2⟩
    | mnemonic word' =>
      rw [List.dropWhile_cons_of_neg (by simp [Token.isDefinition])]
      constructor
      · intro h
        cases h
        exact ⟨[], rfl⟩
      · intro ⟨names, h⟩
        cases names with
        | nil =>
          cases h
          rfl
        | cons name names => cases h
    | _ =>
      rw [List.dropWhile_cons_of_neg (by simp [Token.isDefinition])]
      constructor
      · intro h
        cases h
      · intro ⟨names, h⟩
        cases names <;> cases h

theorem draft?_eq_some_iff : line.draft? = .ok (some d) ↔ line.States d := by
  unfold draft? States
  simp only [← instruction?_eq_some_iff]
  split
  · rename_i h
    simp [h]
  · rename_i word operands h
    simp only [bind_eq_ok, pure_eq_ok, Draft.ofWords_eq_ok_iff, h]
    constructor
    · intro h
      obtain ⟨d', ⟨hname, rfl⟩, ⟨⟩⟩ := h
      exact ⟨word, rfl, hname⟩
    · intro h
      obtain ⟨word', ⟨⟩, hname⟩ := h
      exact ⟨d, ⟨hname, rfl⟩, rfl⟩

/-- A line states nothing exactly if it has no mnemonic. -/
theorem draft?_eq_none_iff :
    line.draft? = .ok none ↔ ∀ word operands, ¬ line.Reads word operands := by
  unfold draft?
  simp only [← instruction?_eq_some_iff]
  split
  · rename_i h
    simp [h]
  · rename_i word operands h
    simp only [bind_eq_ok, pure_eq_ok, h]
    simp

/-- A line can be read exactly if, when it has a mnemonic word, it states a draft. -/
theorem exists_draft?_iff : (∃ draft, line.draft? = .ok draft) ↔
    ∀ word operands, line.Reads word operands → ∃ d, line.States d := by
  constructor
  · intro ⟨draft, h⟩ word operands hreads
    cases draft with
    | none => exact absurd hreads (draft?_eq_none_iff.mp h word operands)
    | some d => exact ⟨d, draft?_eq_some_iff.mp h⟩
  · intro h
    by_cases hreads : ∃ word operands, line.Reads word operands
    · obtain ⟨word, operands, hreads⟩ := hreads
      obtain ⟨d, hd⟩ := h word operands hreads
      exact ⟨some d, draft?_eq_some_iff.mpr hd⟩
    · have hnone := draft?_eq_none_iff.mpr fun word operands hw => hreads ⟨word, operands, hw⟩
      exact ⟨none, hnone⟩

/-- The command that a line states. -/
def command? (line : Line) : Option Command :=
  match line.draft? with
  | .ok (some d) => d.command?
  | _ => none

/-- The length that a line sets for a side. -/
def sideLength? (s : Side) (line : Line) : Option UInt16 :=
  match line.draft? with
  | .ok (some d) => d.sideLength? s
  | _ => none

theorem command?_of_draft? {draft : Option Draft} (h : line.draft? = .ok draft) :
    line.command? = draft.bind Draft.command? := by
  cases draft <;> simp only [command?, h] <;> rfl

theorem sideLength?_of_draft? {draft : Option Draft} (h : line.draft? = .ok draft) (s : Side) :
    line.sideLength? s = draft.bind (Draft.sideLength? s) := by
  cases draft <;> simp only [sideLength?, h] <;> rfl

theorem command?_eq_some_iff {c : Command} :
    line.command? = some c ↔ line.States (.command c) := by
  rw [← draft?_eq_some_iff]
  unfold command?
  split
  · rename_i d h
    rw [h]
    cases d <;> simp [Draft.command?]
  · rename_i hnot
    simp only [reduceCtorEq, false_iff]
    exact hnot (.command c)

theorem sideLength?_eq_some_iff {s : Side} {length : UInt16} :
    line.sideLength? s = some length ↔ ∃ nonzero, line.States (.side s length nonzero) := by
  simp only [← draft?_eq_some_iff]
  unfold sideLength?
  split
  · rename_i d h
    rw [h]
    cases d with
    | command c => simp [Draft.sideLength?]
    | side t length' nonzero =>
      simp only [Draft.sideLength?, Option.ite_none_right_eq_some, Option.some.injEq,
        Except.ok.injEq, Draft.side.injEq]
      constructor
      · intro h
        obtain ⟨rfl, rfl⟩ := h
        exact ⟨nonzero, rfl, rfl⟩
      · intro h
        obtain ⟨-, hside, hlength⟩ := h
        exact ⟨hside, hlength⟩
  · rename_i hnot
    simp only [reduceCtorEq, false_iff, not_exists]
    exact fun nonzero => hnot (.side s length nonzero)

end Line

/-! ### Commands, names and sides -/

/-- The commands of lines in order. -/
def commands (lines : List Line) : List Command := lines.filterMap Line.command?

/-- How many bytes commands take together. -/
def totalWidth : List Command → Nat
  | [] => 0
  | c :: cs => c.width + totalWidth cs

/-- How many bytes the commands of lines take together. -/
def codeWidth (lines : List Line) : Nat := totalWidth (commands lines)

/-- All names that lines define, in order. -/
def definedNames (lines : List Line) : List String := lines.flatMap Line.labels

/-- All lengths that lines set for a side, in order. -/
def sideLengths (s : Side) (lines : List Line) : List UInt16 := lines.filterMap (Line.sideLength? s)

/-- The canvas size that lines ask for, 512 in each side that they do not set. -/
def canvasSize (lines : List Line) : CanvasSize :=
  ⟨(sideLengths .width lines).head?.getD 512, (sideLengths .height lines).head?.getD 512⟩

/-- The lines before the one that defines a name, all lines if none does. -/
def linesBefore (name : String) (lines : List Line) : List Line :=
  lines.takeWhile fun line => name ∉ line.labels

/-- The place of a name among the commands: how many of them stand before it. -/
def labelIndex (lines : List Line) (name : String) : Nat :=
  (commands (linesBefore name lines)).length

/-- The place of a name in the code: how many bytes stand before it. -/
def labelOffset (lines : List Line) (name : String) : Nat := codeWidth (linesBefore name lines)

/-- The offset of a name as the word that stands for it in code. -/
def offsetWord (lines : List Line) (name : String) : UInt16 := UInt16.ofNat (labelOffset lines name)

/-- The instructions of lines, given where names are. -/
def instructions (offset : String → UInt16) (lines : List Line) : List Instruction :=
  (commands lines).map (Command.instruction offset)

/-- The instructions of lines, each name replaced by its offset. -/
def program (lines : List Line) : List Instruction := instructions (offsetWord lines) lines

theorem totalWidth_append (cs ds : List Command) :
    totalWidth (cs ++ ds) = totalWidth cs + totalWidth ds := by
  induction cs with
  | nil => simp [totalWidth]
  | cons c cs ih => rw [List.cons_append, totalWidth, totalWidth, ih, Nat.add_assoc]

section

variable (s : Side) (lines rest : List Line) (name : String)

@[simp] theorem commands_append : commands (lines ++ rest) = commands lines ++ commands rest :=
  List.filterMap_append

@[simp] theorem codeWidth_append :
    codeWidth (lines ++ rest) = codeWidth lines + codeWidth rest := by
  rw [codeWidth, commands_append, totalWidth_append]
  rfl

@[simp] theorem definedNames_append :
    definedNames (lines ++ rest) = definedNames lines ++ definedNames rest :=
  List.flatMap_append

@[simp] theorem definedNames_singleton (line : Line) : definedNames [line] = line.labels := by
  simp [definedNames]

@[simp] theorem sideLengths_append :
    sideLengths s (lines ++ rest) = sideLengths s lines ++ sideLengths s rest :=
  List.filterMap_append

@[simp] theorem sideLengths_singleton (line : Line) :
    sideLengths s [line] = (line.sideLength? s).toList := by
  cases h : line.sideLength? s <;> simp [sideLengths, h]

@[simp] theorem commands_singleton (line : Line) : commands [line] = line.command?.toList := by
  cases h : line.command? <;> simp [commands, h]

theorem ne_zero_of_mem_sideLengths {s : Side} {lines : List Line} {length : UInt16}
    (h : length ∈ sideLengths s lines) : length ≠ 0 := by
  obtain ⟨line, -, hline⟩ := List.mem_filterMap.mp h
  obtain ⟨nonzero, -⟩ := Line.sideLength?_eq_some_iff.mp hline
  exact nonzero

/-- No canvas that lines ask for is empty. -/
theorem canvasSize_ne_zero : (canvasSize lines).width ≠ 0 ∧ (canvasSize lines).height ≠ 0 := by
  have hside (s : Side) : (sideLengths s lines).head?.getD 512 ≠ 0 := by
    -- A side that no line sets has the standard length.
    cases h : (sideLengths s lines).head? with
    | none => decide
    | some length => exact ne_zero_of_mem_sideLengths (List.mem_of_head? h)
  exact ⟨hside .width, hside .height⟩

/-! ### Places of names -/

/-- Lines are those before a name and those from its definition on. -/
theorem exists_append_linesBefore : ∃ after, lines = linesBefore name lines ++ after :=
  ⟨_, (List.takeWhile_append_dropWhile).symm⟩

theorem labelOffset_le : labelOffset lines name ≤ codeWidth lines := by
  obtain ⟨after, h⟩ := exists_append_linesBefore lines name
  have hwidth := congrArg codeWidth h
  rw [codeWidth_append] at hwidth
  unfold labelOffset
  omega

/-- In a short program the word of an offset is exact. -/
theorem toNat_offsetWord {lines : List Line} (h : codeWidth lines ≤ 65535) :
    (offsetWord lines name).toNat = labelOffset lines name := by
  have hle := labelOffset_le lines name
  rw [offsetWord, UInt16.toNat_ofNat']
  omega

theorem labelIndex_le : labelIndex lines name ≤ (commands lines).length := by
  obtain ⟨after, h⟩ := exists_append_linesBefore lines name
  have hcommands := congrArg commands h
  rw [commands_append] at hcommands
  rw [hcommands, List.length_append]
  exact Nat.le_add_right _ _

theorem linesBefore_append_of_all {lines : List Line} (h : name ∉ definedNames lines) :
    linesBefore name (lines ++ rest) = lines ++ linesBefore name rest := by
  refine List.takeWhile_append_of_pos fun line hline => ?_
  have hnot : name ∉ line.labels := fun hmem => h (List.mem_flatMap.mpr ⟨line, hline, hmem⟩)
  simpa using hnot

/-- A new name stands behind all lines so far. -/
theorem linesBefore_append_of_not_mem {line : Line} (h : name ∉ definedNames lines)
    (hline : name ∈ line.labels) : linesBefore name (lines ++ [line]) = lines := by
  rw [linesBefore_append_of_all _ _ h, linesBefore, List.takeWhile_cons_of_neg (by simpa),
    List.append_nil]

/-- Lines behind its definition do not move a name. -/
theorem linesBefore_append_of_mem (h : name ∈ definedNames lines) :
    linesBefore name (lines ++ rest) = linesBefore name lines := by
  obtain ⟨line, hline, hmem⟩ := List.mem_flatMap.mp h
  unfold linesBefore
  rw [List.takeWhile_append, if_neg]
  intro hlength
  -- Otherwise no line defines the name.
  have hself := (List.takeWhile_prefix fun line : Line => decide (name ∉ line.labels)).eq_of_length
    hlength
  have hall := List.all_takeWhile (p := fun line : Line => decide (name ∉ line.labels)) (l := lines)
  rw [hself, List.all_eq_true] at hall
  simpa [hmem] using hall line hline

/-! ### The instructions -/

theorem codeWidth_of_no_command {line : Line} (h : line.command? = none) :
    codeWidth [line] = 0 := by
  rw [codeWidth, commands_singleton, h]
  rfl

theorem codeWidth_of_command {line : Line} {c : Command} (h : line.command? = some c) :
    codeWidth [line] = c.width := by
  rw [codeWidth, commands_singleton, h]
  rfl

theorem instructions_of_no_command (offset : String → UInt16) {line : Line}
    (h : line.command? = none) : instructions offset [line] = [] := by
  simp [instructions, h]

theorem instructions_of_command (offset : String → UInt16) {line : Line} {c : Command}
    (h : line.command? = some c) : instructions offset [line] = [c.instruction offset] := by
  simp [instructions, h]

@[simp] theorem length_program : (program lines).length = (commands lines).length :=
  List.length_map _

@[simp] theorem instructions_append (offset : String → UInt16) :
    instructions offset (lines ++ rest) =
      instructions offset lines ++ instructions offset rest := by
  simp [instructions]

@[simp] theorem widthOf_instructions (offset : String → UInt16) :
    Bytecode.widthOf (instructions offset lines) = codeWidth lines := by
  unfold codeWidth instructions
  induction commands lines with
  | nil => rfl
  | cons c cs ih =>
    rw [List.map_cons, Bytecode.widthOf_cons, ih, Command.width_instruction, totalWidth]

/-- The index and the offset of a name are the same place. -/
theorem widthOf_take_labelIndex :
    Bytecode.widthOf ((program lines).take (labelIndex lines name)) = labelOffset lines name := by
  obtain ⟨after, h⟩ := exists_append_linesBefore lines name
  -- The commands before the name are those of the lines before it.
  have htake : (program lines).take (labelIndex lines name) =
      instructions (offsetWord lines) (linesBefore name lines) := by
    have hinstructions := congrArg (instructions (offsetWord lines)) h
    rw [instructions_append] at hinstructions
    rw [program, hinstructions]
    exact List.take_left' (List.length_map _)
  rw [htake, widthOf_instructions]
  rfl

end

/-! ### One line in front -/

section Places

variable {name : String} {line : Line} (rest : List Line)

theorem linesBefore_cons_of_mem (h : name ∈ line.labels) : linesBefore name (line :: rest) = [] :=
  List.takeWhile_cons_of_neg (by simpa using h)

theorem linesBefore_cons_of_not_mem (h : name ∉ line.labels) :
    linesBefore name (line :: rest) = line :: linesBefore name rest :=
  List.takeWhile_cons_of_pos (by simpa using h)

theorem codeWidth_cons : codeWidth (line :: rest) = codeWidth [line] + codeWidth rest :=
  codeWidth_append [line] rest

end Places

end TurtleVM.Assembly
