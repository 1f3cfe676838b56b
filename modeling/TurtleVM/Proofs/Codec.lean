import TurtleVM.Bytecode

/-! # Decoding reads back encodings

`Spells code offset bytes` says that some bytes stand in a code from an offset on. Every reader of
`Bytecode` succeeds exactly where the bytes of its answer stand, so the same holds of `decode`:

* `decode_eq_ok_iff` — decoding at an offset gives an instruction exactly if its encoding stands
  there. Both directions matter: emitted code reads back as what was emitted, and code that can be
  read is made of encodings.

Code as a whole is the encoding of a list of instructions, `codeOf`, whose length is `widthOf`.
-/

namespace TurtleVM

/-! ### Outcomes in sequence -/

section Except

variable {ε α β : Type}

/-- Two actions in a row succeed exactly if both do. -/
theorem bind_eq_ok {x : Except ε α} {f : α → Except ε β} {b : β} :
    x >>= f = .ok b ↔ ∃ a, x = .ok a ∧ f a = .ok b := by
  cases x <;> simp [bind, Except.bind]

/-- Two actions in a row fail if the first fails, or if it succeeds and the second fails. -/
theorem bind_eq_error {x : Except ε α} {f : α → Except ε β} {e : ε} :
    x >>= f = .error e ↔ x = .error e ∨ ∃ a, x = .ok a ∧ f a = .error e := by
  cases x <;> simp [bind, Except.bind]

@[simp] theorem ok_bind (a : α) (f : α → Except ε β) : (.ok a : Except ε α) >>= f = f a := rfl

@[simp] theorem error_bind (e : ε) (f : α → Except ε β) :
    (.error e : Except ε α) >>= f = .error e := rfl

@[simp] theorem throw_bind (e : ε) (f : α → Except ε β) :
    (throw e : Except ε α) >>= f = .error e := rfl

@[simp] theorem pure_eq_ok {a b : α} : (pure a : Except ε α) = .ok b ↔ a = b := by
  simp [pure, Except.pure]

/-- A failure can be reported differently without any other outcome changing. -/
@[simp] theorem mapError_eq_ok_iff {ε' : Type} {f : ε → ε'} {x : Except ε α} {a : α} :
    x.mapError f = .ok a ↔ x = .ok a := by
  constructor
  · intro h
    cases x with
    | error e => cases h
    | ok b => rw [Except.ok.inj h]
  · intro h
    rw [h]
    rfl

theorem mapError_eq_error_iff {ε' : Type} {f : ε → ε'} {x : Except ε α} {e' : ε'} :
    x.mapError f = .error e' ↔ ∃ e, x = .error e ∧ e' = f e := by
  constructor
  · intro h
    cases x with
    | error e => exact ⟨e, rfl, (Except.error.inj h).symm⟩
    | ok a => cases h
  · intro h
    obtain ⟨e, rfl, rfl⟩ := h
    rfl

theorem map_eq_error_iff {f : α → β} {x : Except ε α} {e : ε} :
    x.map f = .error e ↔ x = .error e := by
  cases x <;> simp [Except.map]

@[simp] theorem throw_ne_ok (e : ε) (b : α) : (throw e : Except ε α) ≠ .ok b := nofun

end Except

/-- No two bytes stand for one register. -/
theorem Register.eq_byte_of_ofByte? {value : UInt8} {r : Register}
    (h : ofByte? value = some r) : value = r.byte := by
  obtain ⟨hlt, hr⟩ := List.getElem?_eq_some_iff.mp h
  have hlt : value.toNat < 8 := hlt
  apply UInt8.toNat_inj.mp
  subst hr
  -- The list of registers is in the order of their bytes.
  have hall : ∀ n (hn : n < all.length), n = (all[n]).byte.toNat := by decide
  exact hall _ hlt

namespace Bytecode

/-! ### Bytes that stand in code -/

/-- The bytes stand in the code, the first of them at the offset. -/
def Spells (code : Bytes) (offset : Nat) (bytes : List UInt8) : Prop :=
  bytes <+: code.toList.drop offset

variable {code : Bytes} {offset : Nat} {bytes xs ys : List UInt8}

@[simp] theorem spells_nil : Spells code offset [] := List.nil_prefix

theorem spells_cons {byte : UInt8} :
    Spells code offset (byte :: bytes) ↔
      code.toList[offset]? = some byte ∧ Spells code (offset + 1) bytes := by
  unfold Spells
  by_cases h : offset < code.toList.length
  · rw [List.drop_eq_getElem_cons h, List.cons_prefix_cons, List.getElem?_eq_getElem h]
    simp [eq_comm]
  · rw [List.drop_eq_nil_of_le (by omega), List.getElem?_eq_none (by omega)]
    simp

theorem spells_append :
    Spells code offset (xs ++ ys) ↔
      Spells code offset xs ∧ Spells code (offset + xs.length) ys := by
  induction xs generalizing offset with
  | nil => simp
  | cons x xs ih =>
    rw [List.cons_append, spells_cons, spells_cons, ih, and_assoc]
    rw [show offset + 1 + xs.length = offset + (x :: xs).length by simp; omega]

/-- Bytes that stand in code end inside it. -/
theorem Spells.add_length_le (h : Spells code offset bytes) (hne : bytes ≠ []) :
    offset + bytes.length ≤ code.size := by
  have hle : bytes.length ≤ code.size - offset := by simpa using h.length_le
  have hpos := List.length_pos_iff.mpr hne
  omega

theorem Spells.lt_size {byte : UInt8} (h : Spells code offset (byte :: bytes)) :
    offset < code.size := by
  have := h.add_length_le (by simp)
  simp only [List.length_cons] at this
  omega

/-- The bytes between two others stand where the first of these end. -/
theorem spells_of_toList_eq {before after : List UInt8}
    (h : code.toList = before ++ bytes ++ after) : Spells code before.length bytes := by
  unfold Spells
  rw [h, List.append_assoc, List.drop_left]
  exact List.prefix_append bytes after

/-- Bytes that fill the whole code are the code. -/
theorem spells_zero_iff (hlen : bytes.length = code.size) :
    Spells code 0 bytes ↔ code.toList = bytes := by
  unfold Spells
  rw [List.drop_zero]
  constructor
  · intro h
    exact (h.eq_of_length (by simpa using hlen)).symm
  · intro h
    exact h ▸ List.prefix_rfl

/-! ### Readers -/

theorem byteAt_eq_ok_iff {byte : UInt8} :
    byteAt code offset = .ok byte ↔ Spells code offset [byte] := by
  rw [spells_cons]
  unfold byteAt
  by_cases h : offset < code.size <;> simp [h]

theorem wordAt_eq_ok_iff {w : UInt16} :
    wordAt code offset = .ok w ↔ Spells code offset (Word.bytes w) := by
  unfold wordAt
  simp only [bind_eq_ok, pure_eq_ok]
  constructor
  · intro h
    obtain ⟨low, hlow, high, hhigh, rfl⟩ := h
    rw [Word.bytes_ofBytes, ← List.singleton_append, spells_append]
    exact ⟨byteAt_eq_ok_iff.mp hlow, byteAt_eq_ok_iff.mp hhigh⟩
  · intro h
    rw [Word.bytes, ← List.singleton_append, spells_append] at h
    exact ⟨_, byteAt_eq_ok_iff.mpr h.1, _, byteAt_eq_ok_iff.mpr h.2, Word.ofBytes_low_high w⟩

theorem registerAt_eq_ok_iff {r : Register} :
    registerAt code offset = .ok r ↔ Spells code offset [r.byte] := by
  unfold registerAt
  rw [bind_eq_ok, ← byteAt_eq_ok_iff]
  constructor
  · intro ⟨byte, hbyte, hr⟩
    split at hr
    · rename_i r' hr'
      obtain rfl := pure_eq_ok.mp hr
      rw [hbyte, Register.eq_byte_of_ofByte? hr']
    · exact absurd hr (throw_ne_ok _ _)
  · intro h
    exact ⟨r.byte, h, by simp⟩

theorem opcodeAt_eq_ok_iff {opcode : Opcode} :
    opcodeAt code offset = .ok opcode ↔ Spells code offset [opcode.byte] := by
  unfold opcodeAt
  rw [bind_eq_ok, ← byteAt_eq_ok_iff]
  constructor
  · intro ⟨byte, hbyte, hop⟩
    split at hop
    · rename_i opcode' hop'
      obtain rfl := pure_eq_ok.mp hop
      rw [hbyte, Opcode.eq_byte_of_ofByte? hop']
    · exact absurd hop (throw_ne_ok _ _)
  · intro h
    exact ⟨opcode.byte, h, by simp⟩

@[simp] theorem length_operand_bytes (rhs : Operand) :
    rhs.bytes.length = operandWidth rhs.isRegister := by
  cases rhs <;> rfl

theorem operandAt_eq_ok_iff {form : Bool} {rhs : Operand} :
    operandAt form code offset = .ok rhs ↔
      rhs.isRegister = form ∧ Spells code offset rhs.bytes := by
  cases form with
  | false =>
    simp only [operandAt, Bool.false_eq_true, ↓reduceIte, bind_eq_ok, pure_eq_ok,
      wordAt_eq_ok_iff]
    cases rhs <;> simp [Operand.isRegister, Operand.bytes]
  | true =>
    simp only [operandAt, ↓reduceIte, bind_eq_ok, pure_eq_ok, registerAt_eq_ok_iff]
    cases rhs <;> simp [Operand.isRegister, Operand.bytes]

/-! ### Instructions -/

theorem spells_encode {i : Instruction} :
    Spells code offset i.encode ↔
      opcodeAt code offset = .ok i.opcode ∧ Spells code (offset + 1) i.fieldBytes := by
  rw [opcodeAt_eq_ok_iff, Instruction.encode, ← List.singleton_append, spells_append]
  rfl

/-- A register field is read as the byte in front of the other fields. -/
theorem spells_register_cons {r : Register} :
    Spells code offset (r.byte :: bytes) ↔
      registerAt code offset = .ok r ∧ Spells code (offset + 1) bytes := by
  rw [registerAt_eq_ok_iff, ← List.singleton_append, spells_append]
  rfl

/-- Code that is read as an instruction holds its encoding. -/
theorem spells_encode_of_decode {i : Instruction} (h : decode code offset = .ok i) :
    Spells code offset i.encode := by
  unfold decode at h
  obtain ⟨⟨operation, form, allowed⟩, hop, h⟩ := bind_eq_ok.mp h
  rw [spells_encode, hop]
  -- Only arithmetic and comparing jumps have the register form.
  have hform : operation.hasRegisterForm = false → form = false := by
    intro hnone
    cases form with
    | false => rfl
    | true => simp [hnone] at allowed
  cases operation with
  | draw | move | halt =>
    obtain rfl := hform rfl
    obtain rfl := pure_eq_ok.mp h
    exact ⟨rfl, spells_nil⟩
  | increment | decrement =>
    obtain rfl := hform rfl
    obtain ⟨r, hr, h⟩ := bind_eq_ok.mp h
    obtain rfl := pure_eq_ok.mp h
    exact ⟨rfl, registerAt_eq_ok_iff.mp hr⟩
  | incrementBy | jumpIfNonZero =>
    obtain rfl := hform rfl
    obtain ⟨r, hr, h⟩ := bind_eq_ok.mp h
    obtain ⟨w, hw, h⟩ := bind_eq_ok.mp h
    obtain rfl := pure_eq_ok.mp h
    exact ⟨rfl, spells_register_cons.mpr ⟨hr, wordAt_eq_ok_iff.mp hw⟩⟩
  | multiplyInto =>
    obtain rfl := hform rfl
    obtain ⟨dest, hdest, h⟩ := bind_eq_ok.mp h
    obtain ⟨src, hsrc, h⟩ := bind_eq_ok.mp h
    obtain ⟨w, hw, h⟩ := bind_eq_ok.mp h
    obtain rfl := pure_eq_ok.mp h
    refine ⟨rfl, spells_register_cons.mpr ⟨hdest, spells_register_cons.mpr ⟨hsrc, ?_⟩⟩⟩
    exact wordAt_eq_ok_iff.mp hw
  | arithmetic f =>
    obtain ⟨r, hr, h⟩ := bind_eq_ok.mp h
    obtain ⟨rhs, hrhs, h⟩ := bind_eq_ok.mp h
    obtain rfl := pure_eq_ok.mp h
    obtain ⟨rfl, hbytes⟩ := operandAt_eq_ok_iff.mp hrhs
    exact ⟨rfl, spells_register_cons.mpr ⟨hr, hbytes⟩⟩
  | jumpIf c =>
    obtain ⟨r, hr, h⟩ := bind_eq_ok.mp h
    obtain ⟨rhs, hrhs, h⟩ := bind_eq_ok.mp h
    obtain ⟨target, htarget, h⟩ := bind_eq_ok.mp h
    obtain rfl := pure_eq_ok.mp h
    obtain ⟨rfl, hbytes⟩ := operandAt_eq_ok_iff.mp hrhs
    refine ⟨rfl, spells_register_cons.mpr ⟨hr, spells_append.mpr ⟨hbytes, ?_⟩⟩⟩
    rw [length_operand_bytes]
    exact wordAt_eq_ok_iff.mp htarget

/-- The encoding of an instruction is read as that instruction, whatever surrounds it. -/
theorem decode_of_spells_encode {i : Instruction} (h : Spells code offset i.encode) :
    decode code offset = .ok i := by
  obtain ⟨hop, hfields⟩ := spells_encode.mp h
  refine bind_eq_ok.mpr ⟨i.opcode, hop, ?_⟩
  cases i with
  | draw | move | halt => rfl
  | increment r | decrement r =>
    have hr := registerAt_eq_ok_iff.mpr hfields
    exact bind_eq_ok.mpr ⟨r, hr, rfl⟩
  | incrementBy r w | jumpIfNonZero r w =>
    obtain ⟨hr, hw⟩ := spells_register_cons.mp hfields
    exact bind_eq_ok.mpr ⟨r, hr, bind_eq_ok.mpr ⟨w, wordAt_eq_ok_iff.mpr hw, rfl⟩⟩
  | multiplyInto dest src w =>
    obtain ⟨hdest, hfields⟩ := spells_register_cons.mp hfields
    obtain ⟨hsrc, hw⟩ := spells_register_cons.mp hfields
    refine bind_eq_ok.mpr ⟨dest, hdest, bind_eq_ok.mpr ⟨src, hsrc, ?_⟩⟩
    exact bind_eq_ok.mpr ⟨w, wordAt_eq_ok_iff.mpr hw, rfl⟩
  | arithmetic f r rhs =>
    obtain ⟨hr, hrhs⟩ := spells_register_cons.mp hfields
    have hrhs := operandAt_eq_ok_iff.mpr ⟨rfl, hrhs⟩
    exact bind_eq_ok.mpr ⟨r, hr, bind_eq_ok.mpr ⟨rhs, hrhs, rfl⟩⟩
  | jumpIf c r rhs target =>
    obtain ⟨hr, hfields⟩ := spells_register_cons.mp hfields
    obtain ⟨hrhs, htarget⟩ := spells_append.mp hfields
    have hrhs := operandAt_eq_ok_iff.mpr ⟨rfl, hrhs⟩
    rw [length_operand_bytes] at htarget
    refine bind_eq_ok.mpr ⟨r, hr, bind_eq_ok.mpr ⟨rhs, hrhs, ?_⟩⟩
    exact bind_eq_ok.mpr ⟨target, wordAt_eq_ok_iff.mpr htarget, rfl⟩

/-- Decoding at an offset gives an instruction exactly if its encoding stands there. -/
theorem decode_eq_ok_iff {i : Instruction} :
    decode code offset = .ok i ↔ Spells code offset i.encode :=
  ⟨spells_encode_of_decode, decode_of_spells_encode⟩

/-- The first byte of a decoded instruction is its opcode. -/
theorem getElem?_of_decode {i : Instruction} (h : decode code offset = .ok i) :
    code[offset]? = some i.opcode.byte := by
  have hfirst := (spells_cons.mp (spells_encode_of_decode h)).1
  rwa [Array.getElem?_toList] at hfirst

/-- Outside the code there is nothing to decode. -/
theorem decode_of_size_le (h : code.size ≤ offset) :
    decode code offset = .error (.outsideCode offset) := by
  have hbyte : byteAt code offset = .error (.outsideCode offset) := by
    simp [byteAt, Nat.not_lt.mpr h]
  simp [decode, opcodeAt, hbyte, bind, Except.bind]

/-- A decoded instruction lies inside the code. -/
theorem add_width_le_of_decode {i : Instruction} (h : decode code offset = .ok i) :
    offset + i.width ≤ code.size := by
  have hle := (spells_encode_of_decode h).add_length_le (by simp [Instruction.encode])
  rwa [Instruction.length_encode] at hle

/-! ### Programs -/

/-- The bytes of instructions written one after the other. -/
def codeOf (is : List Instruction) : List UInt8 := is.flatMap Instruction.encode

/-- How many bytes instructions take together. -/
def widthOf : List Instruction → Nat
  | [] => 0
  | i :: is => i.width + widthOf is

@[simp] theorem codeOf_nil : codeOf [] = [] := rfl

@[simp] theorem codeOf_cons (i : Instruction) (is : List Instruction) :
    codeOf (i :: is) = i.encode ++ codeOf is := rfl

@[simp] theorem codeOf_append (is js : List Instruction) :
    codeOf (is ++ js) = codeOf is ++ codeOf js := List.flatMap_append

@[simp] theorem widthOf_nil : widthOf [] = 0 := rfl

@[simp] theorem widthOf_cons (i : Instruction) (is : List Instruction) :
    widthOf (i :: is) = i.width + widthOf is := rfl

@[simp] theorem widthOf_append (is js : List Instruction) :
    widthOf (is ++ js) = widthOf is + widthOf js := by
  induction is with
  | nil => simp
  | cons i is ih => simp [ih, Nat.add_assoc]

@[simp] theorem length_codeOf (is : List Instruction) : (codeOf is).length = widthOf is := by
  induction is with
  | nil => rfl
  | cons i is ih => simp [ih]

theorem size_of_toList_eq {is : List Instruction} (h : code.toList = codeOf is) :
    code.size = widthOf is := by
  rw [← Array.length_toList, h, length_codeOf]

theorem widthOf_take_le (is : List Instruction) (k : Nat) : widthOf (is.take k) ≤ widthOf is := by
  have h := widthOf_append (is.take k) (is.drop k)
  rw [List.take_append_drop] at h
  omega

theorem widthOf_take_succ {is : List Instruction} {k : Nat} {i : Instruction}
    (hi : is[k]? = some i) : widthOf (is.take (k + 1)) = widthOf (is.take k) + i.width := by
  rw [List.take_add_one, hi, Option.toList_some, widthOf_append, widthOf_cons, widthOf_nil,
    Nat.add_zero]

/-- An instruction of a program is read where the instructions before it end. -/
theorem decode_codeOf {is : List Instruction} (h : code.toList = codeOf is) {k : Nat}
    {i : Instruction} (hi : is[k]? = some i) : decode code (widthOf (is.take k)) = .ok i := by
  obtain ⟨hk, rfl⟩ := List.getElem?_eq_some_iff.mp hi
  have hsplit : code.toList = codeOf (is.take k) ++ is[k].encode ++ codeOf (is.drop (k + 1)) := by
    rw [h, List.append_assoc, ← codeOf_cons, List.getElem_cons_drop, ← codeOf_append,
      List.take_append_drop]
  rw [decode_eq_ok_iff, ← length_codeOf]
  exact spells_of_toList_eq hsplit

end Bytecode

end TurtleVM
