import TurtleVM.Proofs.Codec

/-! # Where decoding fails

The opcode tells what each byte behind it is for: it names a register, or it is half of a word. A
byte can be wrong in two ways only, by not being there and by naming no register. Decoding reports
the first byte that is wrong: `decoding_reports_first_problem`.

`firstProblem?` goes through the bytes one by one. Every reader of `Bytecode` fails just as it
does, and so does a sequence of readers, which is what decoding behind the opcode is.
-/

namespace TurtleVM

/-! ### Fields -/

/-- What a byte behind the opcode is for. -/
inductive Field where
  /-- The byte names a register. -/
  | register
  /-- The byte is the low or the high half of a word. -/
  | half
  deriving DecidableEq

namespace Field

/-- The two bytes of an immediate or a target. -/
def word : List Field := [half, half]

/-- The bytes of an operand in the given form. -/
def operand (registerForm : Bool) : List Field := if registerForm then [register] else word

end Field

namespace Opcode

/-- The bytes behind the opcode, in order. -/
def fields (o : Opcode) : List Field :=
  match o.operation with
  | .draw | .move | .halt => []
  | .increment | .decrement => [.register]
  | .incrementBy | .jumpIfNonZero => .register :: Field.word
  | .arithmetic _ => .register :: Field.operand o.registerForm
  | .multiplyInto => .register :: .register :: Field.word
  | .jumpIf _ => .register :: (Field.operand o.registerForm ++ Field.word)

/-- The fields and the opcode make up the instruction. -/
theorem length_fields (o : Opcode) : o.fields.length + 1 = o.width := by
  obtain ⟨operation, form, allowed⟩ := o
  cases operation with
  | arithmetic f | jumpIf c => cases form <;> rfl
  | _ => rfl

end Opcode

/-- The bytes that name no register are those from 8 on. -/
theorem Register.ofByte?_eq_none_iff {byte : UInt8} : ofByte? byte = none ↔ 8 ≤ byte := by
  unfold ofByte?
  rw [List.getElem?_eq_none_iff, UInt8.le_iff_toNat_le]
  rfl

/-- A byte that is no opcode is the byte of none. -/
theorem Opcode.ofByte?_eq_none_iff {byte : UInt8} :
    ofByte? byte = none ↔ ∀ o : Opcode, o.byte ≠ byte := by
  constructor
  · intro h o ho
    rw [← ho, ofByte?_byte] at h
    cases h
  · intro h
    cases ho : ofByte? byte with
    | none => rfl
    | some o => exact absurd (eq_byte_of_ofByte? ho).symm (h o)

namespace Bytecode

variable {code : Bytes} {offset pc : Nat} {e : DecodeError} {xs ys fields : List Field}

/-! ### The first problem -/

/-- Among the fields from an offset on, the one at a position is missing or names no register. A
missing field is reported by the length of the code. -/
def ProblemAt (code : Bytes) (offset : Nat) (fields : List Field) (k : Nat) (e : DecodeError) :
    Prop :=
  k < fields.length ∧
    ((code[offset + k]? = none ∧ e = .outsideCode code.size) ∨
      ∃ byte, code[offset + k]? = some byte ∧ fields[k]? = some .register ∧ 8 ≤ byte ∧
        e = .registerOutOfRange byte)

/-- The first problem among the fields from an offset on. -/
def FirstProblem (code : Bytes) (offset : Nat) (fields : List Field) (e : DecodeError) : Prop :=
  ∃ k, ProblemAt code offset fields k e ∧ ∀ j < k, ∀ e', ¬ ProblemAt code offset fields j e'

/-- The problem with the byte at an offset, given what it is for. -/
def fieldProblem? (code : Bytes) (offset : Nat) (field : Field) : Option DecodeError :=
  match code[offset]? with
  | none => some (.outsideCode offset)
  | some byte => if field = .register ∧ 8 ≤ byte then some (.registerOutOfRange byte) else none

/-- Goes through the fields up to the first problem. -/
def firstProblem? (code : Bytes) : (offset : Nat) → List Field → Option DecodeError
  | _, [] => none
  | offset, field :: fields =>
    (fieldProblem? code offset field).or (firstProblem? code (offset + 1) fields)

@[simp] theorem firstProblem?_nil : firstProblem? code offset [] = none := rfl

@[simp] theorem firstProblem?_singleton (field : Field) :
    firstProblem? code offset [field] = fieldProblem? code offset field := Option.or_none

theorem firstProblem?_append : firstProblem? code offset (xs ++ ys) =
    (firstProblem? code offset xs).or (firstProblem? code (offset + xs.length) ys) := by
  induction xs generalizing offset with
  | nil => rfl
  | cons field xs ih =>
    rw [List.cons_append, firstProblem?, ih, ← Option.or_assoc, List.length_cons,
      Nat.add_right_comm, Nat.add_assoc]
    rfl

/-- Inside the code, and right behind it, a missing byte is the one behind the last. -/
theorem problemAt_zero_iff {field : Field} (h : offset ≤ code.size) :
    ProblemAt code offset (field :: fields) 0 e ↔ fieldProblem? code offset field = some e := by
  have hsize : code[offset]? = none → offset = code.size := by
    intro hnone
    have hle := Array.getElem?_eq_none_iff.mp hnone
    omega
  unfold ProblemAt fieldProblem?
  rw [Nat.add_zero]
  cases hbyte : code[offset]? with
  | none =>
    rw [hsize hbyte]
    simp [eq_comm]
  | some byte => simp [and_assoc, eq_comm]

theorem problemAt_succ_iff {field : Field} {k : Nat} :
    ProblemAt code offset (field :: fields) (k + 1) e ↔
      ProblemAt code (offset + 1) fields k e := by
  unfold ProblemAt
  rw [List.length_cons, Nat.succ_lt_succ_iff, List.getElem?_cons_succ, Nat.add_right_comm,
    Nat.add_assoc]

/-- A field without a problem is there. -/
theorem lt_size_of_fieldProblem? {field : Field} (h : fieldProblem? code offset field = none) :
    offset < code.size := by
  unfold fieldProblem? at h
  split at h
  · cases h
  · rename_i byte hbyte
    exact (Array.getElem?_eq_some_iff.mp hbyte).1

/-- Without a first problem there is none. -/
theorem firstProblem?_eq_none_iff (h : offset ≤ code.size) :
    firstProblem? code offset fields = none ↔ ∀ k e, ¬ ProblemAt code offset fields k e := by
  induction fields generalizing offset with
  | nil => simp [ProblemAt]
  | cons field fields ih =>
    rw [firstProblem?, Option.or_eq_none_iff]
    constructor
    · intro ⟨hfield, hrest⟩ k e hk
      have hnext : offset + 1 ≤ code.size := lt_size_of_fieldProblem? hfield
      cases k with
      | zero =>
        rw [problemAt_zero_iff h, hfield] at hk
        cases hk
      | succ k => exact (ih hnext).mp hrest k e (problemAt_succ_iff.mp hk)
    · intro hnone
      have hfield : fieldProblem? code offset field = none := by
        cases hproblem : fieldProblem? code offset field with
        | none => rfl
        | some e => exact absurd ((problemAt_zero_iff h).mpr hproblem) (hnone 0 e)
      have hnext : offset + 1 ≤ code.size := lt_size_of_fieldProblem? hfield
      refine ⟨hfield, (ih hnext).mpr fun k e hk => ?_⟩
      exact hnone (k + 1) e (problemAt_succ_iff.mpr hk)

/-- Going through the fields finds the first problem. -/
theorem firstProblem?_eq_some_iff (h : offset ≤ code.size) :
    firstProblem? code offset fields = some e ↔ FirstProblem code offset fields e := by
  induction fields generalizing offset with
  | nil => simp [FirstProblem, ProblemAt]
  | cons field fields ih =>
    rw [firstProblem?]
    cases hfield : fieldProblem? code offset field with
    | some e' =>
      have hzero : ProblemAt code offset (field :: fields) 0 e' :=
        (problemAt_zero_iff h).mpr hfield
      simp only [Option.some_or, Option.some.injEq]
      constructor
      · intro he
        subst he
        exact ⟨0, hzero, fun j hj => absurd hj (Nat.not_lt_zero j)⟩
      · intro ⟨k, hk, hbefore⟩
        -- Nothing comes before the first field, so the problem is its own.
        cases k with
        | zero =>
          rw [problemAt_zero_iff h, hfield] at hk
          exact Option.some.inj hk
        | succ k => exact absurd hzero (hbefore 0 (Nat.succ_pos k) e')
    | none =>
      have hnext : offset + 1 ≤ code.size := lt_size_of_fieldProblem? hfield
      have hzero : ∀ e', ¬ ProblemAt code offset (field :: fields) 0 e' := by
        intro e' h'
        rw [problemAt_zero_iff h, hfield] at h'
        cases h'
      simp only [Option.none_or, ih hnext]
      constructor
      · intro ⟨k, hk, hbefore⟩
        refine ⟨k + 1, problemAt_succ_iff.mpr hk, fun j hj => ?_⟩
        cases j with
        | zero => exact hzero
        | succ j =>
          intro e' hj'
          exact hbefore j (Nat.lt_of_succ_lt_succ hj) e' (problemAt_succ_iff.mp hj')
      · intro ⟨k, hk, hbefore⟩
        cases k with
        | zero => exact absurd hk (hzero e)
        | succ k =>
          refine ⟨k, problemAt_succ_iff.mp hk, fun j hj e' hj' => ?_⟩
          exact hbefore (j + 1) (Nat.succ_lt_succ hj) e' (problemAt_succ_iff.mpr hj')

/-! ### Readers -/

/-- The reader fails with the first problem among the fields from an offset on. -/
def Reads {α : Type} (code : Bytes) (offset : Nat) (fields : List Field)
    (x : Except DecodeError α) : Prop :=
  ∀ e, x = .error e ↔ firstProblem? code offset fields = some e

section Readers

variable {α β : Type}

theorem reads_pure (a : α) : Reads code offset [] (pure a : Except DecodeError α) := by
  intro e
  rw [firstProblem?_nil]
  constructor
  · intro h
    cases h
  · intro h
    cases h

/-- Of two readers in a row, the second comes to fail only where the first does not. -/
theorem Reads.bind {x : Except DecodeError α} {f : α → Except DecodeError β}
    (hx : Reads code offset xs x) (hf : ∀ a, Reads code (offset + xs.length) ys (f a)) :
    Reads code offset (xs ++ ys) (x >>= f) := by
  intro e
  rw [firstProblem?_append]
  cases x with
  | error e' =>
    rw [error_bind, (hx e').mp rfl, Option.some_or, Except.error.injEq, Option.some.injEq]
  | ok a =>
    have hnone : firstProblem? code offset xs = none := by
      cases hproblem : firstProblem? code offset xs with
      | none => rfl
      | some e' => cases (hx e').mpr hproblem
    rw [ok_bind, hnone, Option.none_or]
    exact hf a e

/-- What is made of the answer does not matter. -/
theorem Reads.map {x : Except DecodeError α} (hx : Reads code offset xs x) (f : α → β) :
    Reads code offset xs (x >>= fun a => pure (f a)) := by
  have hbind : Reads code offset (xs ++ []) (x >>= fun a => pure (f a)) :=
    hx.bind fun a => reads_pure (f a)
  rwa [List.append_nil] at hbind

theorem reads_byteAt : Reads code offset [.half] (byteAt code offset) := by
  intro e
  rw [firstProblem?_singleton]
  unfold byteAt fieldProblem?
  by_cases h : offset < code.size <;> simp [h]

theorem reads_wordAt : Reads code offset Field.word (wordAt code offset) :=
  reads_byteAt.bind fun low => reads_byteAt.map (Word.ofBytes low)

theorem reads_registerAt : Reads code offset [.register] (registerAt code offset) := by
  intro e
  rw [firstProblem?_singleton]
  unfold registerAt byteAt fieldProblem?
  by_cases h : offset < code.size
  · rw [dif_pos h, ok_bind, Array.getElem?_eq_getElem h]
    cases hr : Register.ofByte? code[offset] with
    | none =>
      have hbyte := Register.ofByte?_eq_none_iff.mp hr
      simp [hbyte, throw, throwThe, MonadExceptOf.throw]
    | some r =>
      have hbyte : ¬ 8 ≤ code[offset] := by
        rw [← Register.ofByte?_eq_none_iff, hr]
        exact Option.some_ne_none r
      simp [hbyte, pure, Except.pure]
  · rw [dif_neg h, error_bind]
    simp [h]

theorem reads_operandAt (form : Bool) :
    Reads code offset (Field.operand form) (operandAt form code offset) := by
  cases form with
  | false => exact reads_wordAt.map Operand.immediate
  | true => exact reads_registerAt.map Operand.register

@[simp] theorem length_operand (form : Bool) :
    (Field.operand form).length = operandWidth form := by
  cases form <;> rfl

end Readers

/-! ### Decoding -/

/-- Behind the opcode, decoding goes through its fields. -/
theorem reads_decode {o : Opcode} (h : opcodeAt code pc = .ok o) :
    Reads code (pc + 1) o.fields (decode code pc) := by
  obtain ⟨operation, form, allowed⟩ := o
  unfold decode
  rw [h, ok_bind]
  cases operation with
  | draw | move | halt => exact reads_pure _
  | increment | decrement => exact reads_registerAt.map _
  | incrementBy | jumpIfNonZero => exact reads_registerAt.bind fun r => reads_wordAt.map _
  | arithmetic f => exact reads_registerAt.bind fun r => (reads_operandAt form).map _
  | multiplyInto =>
    exact reads_registerAt.bind fun dest => reads_registerAt.bind fun src => reads_wordAt.map _
  | jumpIf c =>
    refine reads_registerAt.bind fun r => (reads_operandAt form).bind fun rhs => ?_
    rw [length_operand]
    exact reads_wordAt.map _

theorem opcodeAt_of_getElem? {o : Opcode} (h : code[pc]? = some o.byte) :
    opcodeAt code pc = .ok o := by
  rw [opcodeAt_eq_ok_iff, spells_cons, Array.getElem?_toList]
  exact ⟨h, spells_nil⟩

/-- A byte that is no opcode is reported as it stands. -/
theorem decode_of_invalid {byte : UInt8} (h : code[pc]? = some byte)
    (hbyte : ∀ o : Opcode, o.byte ≠ byte) : decode code pc = .error (.invalidOpcode byte) := by
  obtain ⟨hlt, hget⟩ := Array.getElem?_eq_some_iff.mp h
  have hnone := Opcode.ofByte?_eq_none_iff.mpr hbyte
  unfold decode opcodeAt byteAt
  rw [dif_pos hlt, hget, ok_bind, hnone]
  rfl

/-- What stands at an offset: nothing, a byte that is no opcode, or an opcode. -/
theorem byte_cases (code : Bytes) (pc : Nat) :
    code.size ≤ pc ∨ (∃ byte, code[pc]? = some byte ∧ ∀ o : Opcode, o.byte ≠ byte) ∨
      ∃ o : Opcode, code[pc]? = some o.byte := by
  cases h : code[pc]? with
  | none => exact .inl (Array.getElem?_eq_none_iff.mp h)
  | some byte =>
    cases ho : Opcode.ofByte? byte with
    | none => exact .inr (.inl ⟨byte, rfl, Opcode.ofByte?_eq_none_iff.mp ho⟩)
    | some o => exact .inr (.inr ⟨o, congrArg some (Opcode.eq_byte_of_ofByte? ho)⟩)

/-- How decoding at an offset fails. -/
theorem decode_eq_error_iff : decode code pc = .error e ↔
    (code.size ≤ pc ∧ e = .outsideCode pc) ∨
    (∃ byte, code[pc]? = some byte ∧ (∀ o : Opcode, o.byte ≠ byte) ∧ e = .invalidOpcode byte) ∨
    ∃ o : Opcode, code[pc]? = some o.byte ∧ FirstProblem code (pc + 1) o.fields e := by
  rcases byte_cases code pc with hend | ⟨byte, hbyte, hinvalid⟩ | ⟨o, ho⟩
  · rw [decode_of_size_le hend]
    simp [hend, eq_comm]
  · have hlt := (Array.getElem?_eq_some_iff.mp hbyte).1
    rw [decode_of_invalid hbyte hinvalid]
    simp only [hbyte, Nat.not_le.mpr hlt, false_and, false_or, Option.some.injEq]
    constructor
    · intro h
      exact .inl ⟨byte, rfl, hinvalid, (Except.error.inj h).symm⟩
    · rintro (⟨byte', rfl, -, rfl⟩ | ⟨o, ho, -⟩)
      · rfl
      · exact absurd ho.symm (hinvalid o)
  · have hlt := (Array.getElem?_eq_some_iff.mp ho).1
    rw [reads_decode (opcodeAt_of_getElem? ho) e, firstProblem?_eq_some_iff hlt]
    simp only [ho, Nat.not_le.mpr hlt, false_and, false_or, Option.some.injEq]
    constructor
    · intro h
      exact .inr ⟨o, rfl, h⟩
    · rintro (⟨byte, rfl, hinvalid, -⟩ | ⟨o', ho', h⟩)
      · exact absurd rfl (hinvalid o)
      · -- No other opcode has the byte.
        have hopcode := congrArg Opcode.ofByte? ho'
        rw [Opcode.ofByte?_byte, Opcode.ofByte?_byte, Option.some.injEq] at hopcode
        rwa [hopcode]

/-- Decoding succeeds exactly behind an opcode without a problem in its fields. -/
theorem exists_decode_iff : (∃ i, decode code pc = .ok i) ↔
    ∃ o : Opcode, code[pc]? = some o.byte ∧
      ∀ k e, ¬ ProblemAt code (pc + 1) o.fields k e := by
  constructor
  · intro ⟨i, hi⟩
    have hopcode := getElem?_of_decode hi
    have hlt := (Array.getElem?_eq_some_iff.mp hopcode).1
    refine ⟨i.opcode, hopcode, (firstProblem?_eq_none_iff hlt).mp ?_⟩
    -- A problem would have been reported.
    cases hproblem : firstProblem? code (pc + 1) i.opcode.fields with
    | none => rfl
    | some e =>
      have herror := (reads_decode (opcodeAt_of_getElem? hopcode) e).mpr hproblem
      rw [hi] at herror
      cases herror
  · intro ⟨o, ho, hnone⟩
    have hlt := (Array.getElem?_eq_some_iff.mp ho).1
    cases hdecode : decode code pc with
    | ok i => exact ⟨i, rfl⟩
    | error e =>
      have hproblem := (reads_decode (opcodeAt_of_getElem? ho) e).mp hdecode
      rw [(firstProblem?_eq_none_iff hlt).mpr hnone] at hproblem
      cases hproblem

/-! ### What decoding looks at -/

/-- The codes are equally long and agree on the byte at an offset and, if that is an opcode, on all
bytes of its instruction. -/
structure AgreesAt (code code' : Bytes) (pc : Nat) : Prop where
  size : code'.size = code.size
  first : code'[pc]? = code[pc]?
  fields : ∀ o : Opcode, code[pc]? = some o.byte → ∀ k < o.width, code'[pc + k]? = code[pc + k]?

variable {code' : Bytes}

theorem AgreesAt.symm (h : AgreesAt code code' pc) : AgreesAt code' code pc where
  size := h.size.symm
  first := h.first.symm
  fields o ho k hk := (h.fields o (h.first ▸ ho) k hk).symm

theorem AgreesAt.problemAt (h : AgreesAt code code' pc) {o : Opcode}
    (ho : code[pc]? = some o.byte) {k : Nat} (hk : ProblemAt code (pc + 1) o.fields k e) :
    ProblemAt code' (pc + 1) o.fields k e := by
  have hwidth : k + 1 < o.width := by
    have hlength := o.length_fields
    have hlt := hk.1
    omega
  have hbyte : code'[pc + 1 + k]? = code[pc + 1 + k]? := by
    rw [Nat.add_assoc, Nat.add_comm 1 k]
    exact h.fields o ho (k + 1) hwidth
  unfold ProblemAt
  rw [hbyte, h.size]
  exact hk

/-- A failure is a failure of both codes. -/
theorem AgreesAt.decode_error (h : AgreesAt code code' pc) (he : decode code pc = .error e) :
    decode code' pc = .error e := by
  rw [decode_eq_error_iff] at he ⊢
  rw [h.size, h.first]
  rcases he with hend | hinvalid | ⟨o, ho, k, hk, hbefore⟩
  · exact .inl hend
  · exact .inr (.inl hinvalid)
  · refine .inr (.inr ⟨o, ho, k, h.problemAt ho hk, fun j hj e' hj' => ?_⟩)
    exact hbefore j hj e' (h.symm.problemAt (h.first ▸ ho) hj')

/-- Decoding depends on the length of the code and on the bytes of the instruction only. -/
theorem AgreesAt.decode_eq (h : AgreesAt code code' pc) : decode code' pc = decode code pc := by
  cases hdecode : decode code pc with
  | error e => exact h.decode_error hdecode
  | ok i =>
    have hspells := spells_encode_of_decode hdecode
    apply decode_of_spells_encode
    -- The encoding stands in the other code byte by byte.
    refine List.prefix_iff_getElem?.mpr fun k hk => ?_
    have hbyte := List.prefix_iff_getElem?.mp hspells k hk
    rw [List.getElem?_drop, Array.getElem?_toList] at hbyte ⊢
    rw [i.length_encode] at hk
    rw [h.fields i.opcode (getElem?_of_decode hdecode) k hk, hbyte]

/-- Bytes behind the code do not change what is decoded. -/
theorem decode_append {i : Instruction} (h : decode code pc = .ok i) (more : Bytes) :
    decode (code ++ more) pc = .ok i := by
  have hle : pc ≤ code.toList.length := by
    have hwidth := add_width_le_of_decode h
    rw [Array.length_toList]
    omega
  apply decode_of_spells_encode
  unfold Spells
  rw [Array.toList_append, List.drop_append_of_le_length hle]
  exact (spells_encode_of_decode h).trans (List.prefix_append _ _)

/-- **Decoding reports the first problem.** It fails at an offset outside the code, on a byte that
is no opcode, which is reported with its top bit, and otherwise with the first problem among the
fields of the opcode from left to right: a byte from 8 on where a register is named, or a missing
byte, which is reported by the length of the code. Without a problem it succeeds. Nothing but the
length of the code and the bytes of the instruction plays a part, and where decoding succeeds, not
even bytes behind the code do. -/
theorem decoding_reports_first_problem :
    (∀ (code : Bytes) (pc : Nat) (e : DecodeError), decode code pc = .error e ↔
      (code.size ≤ pc ∧ e = .outsideCode pc) ∨
      (∃ byte, code[pc]? = some byte ∧ (∀ o : Opcode, o.byte ≠ byte) ∧
        e = .invalidOpcode byte) ∨
      ∃ o : Opcode, code[pc]? = some o.byte ∧ FirstProblem code (pc + 1) o.fields e) ∧
    (∀ (code : Bytes) (pc : Nat), (∃ i, decode code pc = .ok i) ↔
      ∃ o : Opcode, code[pc]? = some o.byte ∧
        ∀ k e, ¬ ProblemAt code (pc + 1) o.fields k e) ∧
    (∀ (code code' : Bytes) (pc : Nat), AgreesAt code code' pc →
      decode code' pc = decode code pc) ∧
    (∀ (code more : Bytes) (pc : Nat) (i : Instruction), decode code pc = .ok i →
      decode (code ++ more) pc = .ok i) := by
  refine ⟨?_, ?_, ?_, ?_⟩
  · intro code pc e
    exact decode_eq_error_iff
  · intro code pc
    exact exists_decode_iff
  · intro code code' pc h
    exact h.decode_eq
  · intro code more pc i h
    exact decode_append h more

/-- A halt, then a comparing jump that names no register in its second field and is cut off in its
target. -/
def cutJump : Bytes := #[8, 0x8e, 1, 9, 5]

/-- The bad register comes before the cut. What stands in front of the jump does not matter, and
what stands behind the halt does not matter to it. -/
theorem decoding_reports_first_problem_of_cutJump :
    decode cutJump 1 = .error (.registerOutOfRange 9) ∧
      decode #[0, 0x8e, 1, 9, 5] 1 = decode cutJump 1 ∧
      decode #[8] 0 = .ok .halt ∧ decode (#[8] ++ #[0x8e, 1, 9, 5]) 0 = .ok .halt := by
  have hjump : cutJump[1]? = some (Opcode.mk (.jumpIf .less) true fun _ => rfl).byte := rfl
  have hagrees : AgreesAt cutJump #[0, 0x8e, 1, 9, 5] 1 := by
    refine ⟨rfl, rfl, fun o ho k hk => ?_⟩
    rw [← Array.getElem?_toList, ← Array.getElem?_toList, Nat.add_comm]
    rfl
  refine ⟨?_, decoding_reports_first_problem.2.2.1 _ _ _ hagrees, rfl,
    decoding_reports_first_problem.2.2.2 _ _ _ _ rfl⟩
  refine (decoding_reports_first_problem.1 _ _ _).mpr (.inr (.inr ⟨_, hjump, 1, ?_, ?_⟩))
  · exact ⟨by decide, .inr ⟨9, rfl, rfl, by decide, rfl⟩⟩
  · -- The register in front is one.
    rintro j hj e ⟨-, ⟨hmissing, -⟩ | ⟨byte, hbyte, -, hrange, -⟩⟩
    · obtain rfl := Nat.lt_one_iff.mp hj
      cases hmissing
    · obtain rfl := Nat.lt_one_iff.mp hj
      obtain rfl := Option.some.inj hbyte
      exact absurd hrange (by decide)

end Bytecode

end TurtleVM
