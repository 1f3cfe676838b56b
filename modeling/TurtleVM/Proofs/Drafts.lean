import TurtleVM.Assembly.Statement
import TurtleVM.Proofs.Codec

/-! # Statements before their labels are resolved

A draft is a statement whose jump target is still a name. Reading a statement is reading its draft
and then resolving the name, `Statement.ofWords_eq`, so whatever does not concern offsets can be
said of drafts alone.

A draft fixes its mnemonic and its operand tokens. `Draft.parse_eq_ok_iff` tells that these are the
only tokens it is read from: the operand shapes that are accepted are the ones that drafts have.
-/

namespace TurtleVM.Assembly

/-! ### Commands -/

/-- When a jump is taken. -/
inductive Condition where
  | nonZero (r : Register)
  | comparison (c : Comparison) (r : Register) (rhs : Operand)
  deriving DecidableEq

/-- The jump to an offset under a condition. -/
def Condition.jumpTo (target : UInt16) : Condition → Instruction
  | nonZero r => .jumpIfNonZero r target
  | comparison c r rhs => .jumpIf c r rhs target

/-- An instruction whose jump target, if it has one, is a name. -/
inductive Command where
  | plain (i : Instruction) (straight : i.jumpTarget? = none)
  | jump (condition : Condition) (label : String)
  deriving DecidableEq

namespace Command

/-- The instruction of a command, given where names are. -/
def instruction (offset : String → UInt16) : Command → Instruction
  | plain i _ => i
  | jump condition label => condition.jumpTo (offset label)

/-- The name of the target. -/
def label? : Command → Option String
  | plain _ _ => none
  | jump _ label => some label

/-- Bytes that the instruction takes, wherever names are. -/
def width (c : Command) : Nat := (c.instruction fun _ => 0).width

/-- The operation of the instruction, wherever names are. -/
def operation (c : Command) : Operation := (c.instruction fun _ => 0).operation

@[simp] theorem width_instruction (offset : String → UInt16) (c : Command) :
    (c.instruction offset).width = c.width := by
  cases c with
  | plain i straight => rfl
  | jump condition label => cases condition <;> rfl

/-- The command of an instruction whose jump target goes by the name it has in the text. -/
def ofInstruction : Instruction → Command
  | .draw => .plain .draw rfl
  | .move => .plain .move rfl
  | .halt => .plain .halt rfl
  | .increment r => .plain (.increment r) rfl
  | .incrementBy r amount => .plain (.incrementBy r amount) rfl
  | .decrement r => .plain (.decrement r) rfl
  | .arithmetic f r rhs => .plain (.arithmetic f r rhs) rfl
  | .multiplyInto dest src factor => .plain (.multiplyInto dest src factor) rfl
  | .jumpIfNonZero r target => .jump (.nonZero r) (Instruction.targetName target)
  | .jumpIf c r rhs target => .jump (.comparison c r rhs) (Instruction.targetName target)

/-- With the name of its target standing for the target, the command is the instruction. -/
theorem instruction_ofInstruction {offset : String → UInt16} {i : Instruction}
    (h : ∀ target, i.jumpTarget? = some target → offset (Instruction.targetName target) = target) :
    (ofInstruction i).instruction offset = i := by
  cases i with
  | jumpIfNonZero r target =>
    show Instruction.jumpIfNonZero r (offset (Instruction.targetName target)) = _
    rw [h target rfl]
  | jumpIf c r rhs target =>
    show Instruction.jumpIf c r rhs (offset (Instruction.targetName target)) = _
    rw [h target rfl]
  | _ => rfl

theorem label?_ofInstruction (i : Instruction) :
    (ofInstruction i).label? = i.jumpTarget?.map Instruction.targetName := by
  cases i <;> rfl

theorem operation_ofInstruction (i : Instruction) :
    (ofInstruction i).operation = i.operation := by
  cases i <;> rfl

theorem width_ofInstruction (i : Instruction) : (ofInstruction i).width = i.width := by
  cases i <;> rfl

end Command

/-- A statement whose jump target, if it has one, is a name. -/
inductive Draft where
  | command (c : Command)
  | side (s : Side) (length : UInt16) (nonzero : length ≠ 0)
  deriving DecidableEq

/-- The command that a draft states. -/
def Draft.command? : Draft → Option Command
  | command c => some c
  | side _ _ _ => none

/-- The length that a draft sets for a side. -/
def Draft.sideLength? (s : Side) : Draft → Option UInt16
  | command _ => none
  | side t length _ => if t = s then some length else none

/-! ### How drafts are written -/

/-- The token of a right-hand operand. -/
def Token.ofOperand : Operand → Token
  | .immediate value => .number value.toNat
  | .register r => .register r

/-- The operand tokens of an instruction, without the target of a jump. -/
def Token.ofFields : Instruction → List Token
  | .draw | .move | .halt => []
  | .increment r | .decrement r => [.register r]
  | .incrementBy r amount => [.register r, .number amount.toNat]
  | .arithmetic _ r rhs => [.register r, .ofOperand rhs]
  | .multiplyInto dest src factor => [.register dest, .register src, .number factor.toNat]
  | .jumpIfNonZero r _ => [.register r]
  | .jumpIf _ r rhs _ => [.register r, .ofOperand rhs]

/-- The operand tokens of a command. -/
def Command.operands : Command → List Token
  | plain i _ => Token.ofFields i
  | jump condition label => Token.ofFields (condition.jumpTo 0) ++ [.reference label]

/-- The mnemonic that an operation is written with. -/
def Mnemonic.ofOperation : Operation → Mnemonic
  | .draw => .draw
  | .move => .move
  | .halt => .halt
  | .increment | .incrementBy => .increment
  | .decrement => .decrement
  | .arithmetic f => .arithmetic f
  | .multiplyInto => .arithmetic .multiply
  | .jumpIfNonZero => .jumpIfNonZero
  | .jumpIf c => .jumpIf c

namespace Draft

/-- The mnemonic of a draft. -/
def mnemonic : Draft → Mnemonic
  | command c => .ofOperation c.operation
  | side s _ _ => .directive s

/-- The operand tokens of a draft. -/
def operands : Draft → List Token
  | command c => c.operands
  | side _ length _ => [.number length.toNat]

end Draft

/-! ### Numbers that fit -/

namespace Statement

variable {value : Int} {w : UInt16}

theorem immediate_eq_ok_iff : immediate value = .ok w ↔ value = w.toNat := by
  have hw := w.toNat_lt
  unfold immediate
  split
  · rename_i hrange
    rw [Except.ok.injEq, ← UInt16.toNat_inj, UInt16.toNat_ofNat']
    omega
  · constructor
    · intro h
      cases h
    · intro h
      omega

theorem sideLength_eq_ok_iff : sideLength value = .ok w ↔ value = w.toNat ∧ w ≠ 0 := by
  have hw := w.toNat_lt
  have hzero : w ≠ 0 ↔ w.toNat ≠ 0 := by
    rw [ne_eq, ← UInt16.toNat_inj]
    rfl
  unfold sideLength
  split
  · rename_i hrange
    rw [Except.ok.injEq, hzero, ← UInt16.toNat_inj, UInt16.toNat_ofNat']
    omega
  · constructor
    · intro h
      cases h
    · intro ⟨h, hne⟩
      rw [hzero] at hne
      omega

@[simp] theorem immediate_toNat (w : UInt16) : immediate w.toNat = .ok w :=
  immediate_eq_ok_iff.mpr rfl

theorem ne_zero_of_sideLength (h : sideLength value = .ok w) : w ≠ 0 :=
  (sideLength_eq_ok_iff.mp h).2

theorem rightHand_eq_ok_iff {m : Mnemonic} {token : Token} {rhs : Operand} :
    rightHand m token = .ok rhs ↔ token = .ofOperand rhs := by
  cases token with
  | register r => cases rhs <;> simp [rightHand, Token.ofOperand]
  | number value =>
    simp only [rightHand, bind_eq_ok, pure_eq_ok, immediate_eq_ok_iff]
    cases rhs <;> simp [Token.ofOperand]
  | _ => cases rhs <;> simp [rightHand, Token.ofOperand]

@[simp] theorem rightHand_ofOperand (m : Mnemonic) (rhs : Operand) :
    rightHand m (.ofOperand rhs) = .ok rhs :=
  rightHand_eq_ok_iff.mpr rfl

end Statement

/-! ### Reading drafts -/

namespace Draft

/-- The draft of a mnemonic and its operands. -/
def parse (m : Mnemonic) (operands : List Token) : Except Cause Draft :=
  match m, operands with
  | .draw, [] => return command (.plain .draw rfl)
  | .move, [] => return command (.plain .move rfl)
  | .halt, [] => return command (.plain .halt rfl)
  | .increment, [.register r] => return command (.plain (.increment r) rfl)
  | .increment, [.register r, .number value] =>
    return command (.plain (.incrementBy r (← Statement.immediate value)) rfl)
  | .decrement, [.register r] => return command (.plain (.decrement r) rfl)
  | .arithmetic f, [.register r, rhs] =>
    return command (.plain (.arithmetic f r (← Statement.rightHand m rhs)) rfl)
  | .arithmetic .multiply, [.register dest, .register src, .number value] =>
    return command (.plain (.multiplyInto dest src (← Statement.immediate value)) rfl)
  | .jumpIfNonZero, [.register r, .reference label] =>
    return command (.jump (.nonZero r) label)
  | .jumpIf c, [.register r, rhs, .reference label] =>
    return command (.jump (.comparison c r (← Statement.rightHand m rhs)) label)
  | .directive s, [.number value] =>
    match h : Statement.sideLength value with
    | .ok length => return side s length (Statement.ne_zero_of_sideLength h)
    | .error cause => throw cause
  | _, _ => throw (.invalidOperands m)

/-- The statement of a draft, where `resolve` gives the offsets of labels. -/
def resolve (resolve : String → Except Cause UInt16) : Draft → Except Cause Statement
  | command (.plain i _) => return .instruction i
  | command (.jump condition label) => return .instruction (condition.jumpTo (← resolve label))
  | side s length _ => return .side s length

variable {m : Mnemonic} {tokens : List Token} {d : Draft}

/-- A draft is read from its own mnemonic and operands. -/
theorem parse_self (d : Draft) : parse d.mnemonic d.operands = .ok d := by
  cases d with
  | command c =>
    cases c with
    | jump condition label =>
      cases condition with
      | nonZero r => rfl
      | comparison c r rhs =>
        exact bind_eq_ok.mpr ⟨rhs, Statement.rightHand_ofOperand _ rhs, rfl⟩
    | plain i straight =>
      cases i with
      | draw | move | halt | increment | decrement => rfl
      | incrementBy r amount =>
        exact bind_eq_ok.mpr ⟨amount, Statement.immediate_toNat amount, rfl⟩
      | arithmetic f r rhs =>
        exact bind_eq_ok.mpr ⟨rhs, Statement.rightHand_ofOperand _ rhs, rfl⟩
      | multiplyInto dest src factor =>
        exact bind_eq_ok.mpr ⟨factor, Statement.immediate_toNat factor, rfl⟩
      -- A plain instruction is no jump.
      | jumpIfNonZero | jumpIf => cases straight
  | side s length nonzero =>
    -- The length is read back together with the proof that it is not zero.
    have hlength := Statement.sideLength_eq_ok_iff.mpr ⟨rfl, nonzero⟩
    simp only [mnemonic, operands, parse]
    split
    · rename_i length' h
      obtain rfl := Except.ok.inj (h.symm.trans hlength)
      rfl
    · rename_i cause h
      rw [hlength] at h
      cases h

/-- What is read as a draft is its mnemonic and its operands. -/
theorem eq_of_parse (h : parse m tokens = .ok d) : d.mnemonic = m ∧ d.operands = tokens := by
  unfold parse at h
  split at h
  -- First the shapes without a number, which cannot fail.
  case h_1 | h_2 | h_3 | h_4 | h_6 | h_9 =>
    obtain rfl := pure_eq_ok.mp h
    exact ⟨rfl, rfl⟩
  case h_5 | h_8 =>
    obtain ⟨w, hw, h⟩ := bind_eq_ok.mp h
    obtain rfl := pure_eq_ok.mp h
    rw [Statement.immediate_eq_ok_iff.mp hw]
    exact ⟨rfl, rfl⟩
  case h_7 | h_10 =>
    obtain ⟨rhs, hrhs, h⟩ := bind_eq_ok.mp h
    obtain rfl := pure_eq_ok.mp h
    rw [Statement.rightHand_eq_ok_iff.mp hrhs]
    exact ⟨rfl, rfl⟩
  case h_11 =>
    split at h
    · rename_i length hlength
      obtain rfl := pure_eq_ok.mp h
      have hvalue := (Statement.sideLength_eq_ok_iff.mp hlength).1
      exact ⟨rfl, congrArg (fun v => [Token.number v]) hvalue.symm⟩
    · exact absurd h (throw_ne_ok _ _)
  case h_12 => exact absurd h (throw_ne_ok _ _)

/-- The operand shapes that are accepted are those of drafts. -/
theorem parse_eq_ok_iff : parse m tokens = .ok d ↔ d.mnemonic = m ∧ d.operands = tokens := by
  constructor
  · exact eq_of_parse
  · intro h
    obtain ⟨rfl, rfl⟩ := h
    exact parse_self d

end Draft

/-! ### Statements are resolved drafts -/

/-- Every operand but the label is read before the label is resolved. -/
theorem Statement.parse_eq (m : Mnemonic) (operands : List Token)
    (resolve : String → Except Cause UInt16) :
    Statement.parse m operands resolve = Draft.parse m operands >>= Draft.resolve resolve := by
  -- Both readings go by the same shapes, so they are compared shape by shape.
  fun_cases Draft.parse m operands
  case case1 | case2 | case3 | case4 | case6 | case9 => rfl
  case case5 value | case8 value =>
    simp only [Statement.parse]
    cases immediate value <;> rfl
  case case7 f r rhs =>
    simp only [Statement.parse]
    cases rightHand (.arithmetic f) rhs <;> rfl
  case case10 c r rhs label =>
    simp only [Statement.parse]
    cases rightHand (.jumpIf c) rhs <;> rfl
  case case11 s value length h =>
    simp only [Statement.parse, h]
    rfl
  case case12 s value cause h =>
    simp only [Statement.parse, h]
    rfl
  case case13 =>
    simp only [Statement.parse]
    rfl

/-- The draft of an instruction line, where the mnemonic is still a word. -/
def Draft.ofWords (word : String) (operands : List Token) : Except Cause Draft :=
  match Mnemonic.ofWord? word with
  | some m => Draft.parse m operands
  | none => throw .unknownMnemonic

theorem Statement.ofWords_eq (word : String) (operands : List Token)
    (resolve : String → Except Cause UInt16) :
    Statement.ofWords word operands resolve =
      Draft.ofWords word operands >>= Draft.resolve resolve := by
  unfold Statement.ofWords Draft.ofWords
  cases Mnemonic.ofWord? word with
  | none => rfl
  | some m => exact Statement.parse_eq m operands resolve

/-- The statement of a draft, given where names are. -/
def Draft.statement (offset : String → UInt16) : Draft → Statement
  | command c => .instruction (c.instruction offset)
  | side s length _ => .side s length

/-- With an offset for every name, every draft can be resolved. -/
theorem Draft.resolve_ok (offset : String → UInt16) (d : Draft) :
    d.resolve (fun name => .ok (offset name)) = .ok (d.statement offset) := by
  cases d with
  | command c => cases c <;> rfl
  | side s length nonzero => rfl

/-! ### Words that name mnemonics -/

/-- A word names a mnemonic, whatever the case of its ASCII letters. -/
def Mnemonic.Names (word : String) (m : Mnemonic) : Prop := (word.map Char.toUpper, m) ∈ names

instance (word : String) (m : Mnemonic) : Decidable (m.Names word) :=
  inferInstanceAs (Decidable (_ ∈ _))

/-- With distinct keys, looking up finds every entry of a table. -/
theorem lookup_eq_some_iff_mem {α β : Type} [BEq α] [LawfulBEq α] {l : List (α × β)}
    (hdistinct : (l.map Prod.fst).Nodup) {key : α} {value : β} :
    l.lookup key = some value ↔ (key, value) ∈ l := by
  induction l with
  | nil => simp
  | cons entry l ih =>
    obtain ⟨key', value'⟩ := entry
    -- The key of the first entry is not a key of the others.
    obtain ⟨hnew, hdistinct⟩ := List.nodup_cons.mp hdistinct
    rw [List.lookup_cons, List.mem_cons, Prod.mk.injEq]
    by_cases hkey : key = key'
    · subst hkey
      have hnot : (key, value) ∉ l := fun hmem => hnew (List.mem_map.mpr ⟨_, hmem, rfl⟩)
      simp [hnot, eq_comm]
    · have hbeq : (key == key') = false := beq_false_of_ne hkey
      simp [hkey, hbeq, ih hdistinct]

theorem Mnemonic.ofWord?_eq_some_iff {word : String} {m : Mnemonic} :
    ofWord? word = some m ↔ Names word m :=
  lookup_eq_some_iff_mem (by decide)

theorem Draft.ofWords_eq_ok_iff {word : String} {tokens : List Token} {d : Draft} :
    ofWords word tokens = .ok d ↔ Mnemonic.Names word d.mnemonic ∧ d.operands = tokens := by
  unfold ofWords
  constructor
  · intro h
    split at h
    · rename_i m hm
      obtain ⟨rfl, rfl⟩ := parse_eq_ok_iff.mp h
      exact ⟨Mnemonic.ofWord?_eq_some_iff.mp hm, rfl⟩
    · exact absurd h (throw_ne_ok _ _)
  · intro h
    obtain ⟨hm, rfl⟩ := h
    simp only [Mnemonic.ofWord?_eq_some_iff.mpr hm, parse_self]

end TurtleVM.Assembly
