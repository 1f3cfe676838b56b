import TurtleVM.Proofs.ImageWriting

/-! # Encodings in any context

A writer puts the encoding of an instruction behind the bytes that it has written. Wherever these
bytes end up, decoding there gives the instruction back, and nothing else that is decoded has other
bytes: `encoding_and_decoding_inverse`.

So an encoding needs no mark of its end. Its first byte tells how long it is, and no encoding begins
with a shorter one.
-/

namespace TurtleVM

open Bytecode Image

namespace Image.Writer

variable {w : Writer} {i : Instruction}

/-- With room for it, the encoding of an instruction goes where the written part ends. -/
theorem add_of_room (hshort : w.codeOffset + i.width ≤ 65535)
    (hroom : w.used + i.width ≤ w.buffer.size) :
    (w.add i).1 = .ok () ∧ (w.add i).2.used = w.used + i.width ∧
      (w.add i).2.buffer.toList =
        w.buffer.toList.take w.used ++ i.encode ++ w.buffer.toList.drop (w.used + i.width) := by
  have hadd : w.add i = w.putBytes i.encode := if_neg (Nat.not_lt.mpr hshort)
  have hanswer := putBytes_fst i.encode w
  have hused := used_putBytes i.encode w
  have hbuffer := toList_putBytes i.encode w
  rw [Instruction.length_encode] at hanswer hused hbuffer
  -- All bytes of the encoding are taken.
  have htake : i.encode.take (w.buffer.size - w.used) = i.encode := by
    apply List.take_of_length_le
    rw [Instruction.length_encode]
    omega
  rw [htake] at hbuffer
  rw [hadd]
  exact ⟨hanswer.trans (if_pos hroom), hused.trans (Nat.min_eq_left hroom), hbuffer⟩

end Image.Writer

namespace Bytecode

variable {code : Bytes} {pc : Nat} {i j : Instruction}

/-- What surrounds an encoding does not change what it is decoded to. -/
theorem decode_append_encode (i : Instruction) (before after : List UInt8) :
    decode (before ++ i.encode ++ after).toArray before.length = .ok i := by
  have hspells : Bytecode.Spells (before ++ i.encode ++ after).toArray before.length i.encode :=
    spells_of_toList_eq rfl
  exact decode_of_spells_encode hspells

/-- The bytes that an instruction is decoded from are its encoding. -/
theorem extract_of_decode (h : decode code pc = .ok i) :
    (code.extract pc (pc + i.width)).toList = i.encode := by
  have hspells : i.encode <+: code.toList.drop pc := spells_encode_of_decode h
  have htake := List.prefix_iff_eq_take.mp hspells
  rw [Instruction.length_encode] at htake
  rw [Array.toList_extract, List.extract_eq_take_drop, Nat.add_sub_cancel_left]
  exact htake.symm

/-- No encoding begins with the encoding of another instruction. -/
theorem eq_of_encode_prefix (h : i.encode <+: j.encode) : i = j := by
  -- Both are decoded at the start of the longer one.
  have hj : decode j.encode.toArray 0 = .ok j := by
    simpa using decode_append_encode j [] []
  have hi : decode j.encode.toArray 0 = .ok i := decode_of_spells_encode h
  exact Except.ok.inj (hi.symm.trans hj)

end Bytecode

/-- **Encoding and decoding are inverse in any context.** A writer with room for it writes the
encoding of an instruction. Between any bytes, the encoding is decoded to the instruction. What is
decoded at an offset ends inside the code, its bytes there are just its encoding, and their number
is the width of the opcode that the first of them stands for. No encoding is a proper prefix of
another, since it begins with no encoding but that of the same instruction. -/
theorem encoding_and_decoding_inverse :
    (∀ (i : Instruction) (w : Writer), w.codeOffset + i.width ≤ 65535 →
      w.used + i.width ≤ w.buffer.size →
        (w.add i).1 = .ok () ∧ (w.add i).2.used = w.used + i.width ∧
          (w.add i).2.buffer.toList =
            w.buffer.toList.take w.used ++ i.encode ++ w.buffer.toList.drop (w.used + i.width)) ∧
    (∀ (i : Instruction) (before after : List UInt8),
      decode (before ++ i.encode ++ after).toArray before.length = .ok i) ∧
    (∀ (code : Bytes) (pc : Nat) (i : Instruction), decode code pc = .ok i →
      pc + i.width ≤ code.size ∧ (code.extract pc (pc + i.width)).toList = i.encode ∧
        ∃ byte opcode, code[pc]? = some byte ∧ Opcode.ofByte? byte = some opcode ∧
          opcode.width = i.width ∧ i.encode.length = opcode.width) ∧
    (∀ i j : Instruction, i.encode <+: j.encode → i = j) := by
  refine ⟨?_, decode_append_encode, ?_, ?_⟩
  · intro i w hshort hroom
    exact Writer.add_of_room hshort hroom
  · intro code pc i h
    refine ⟨add_width_le_of_decode h, extract_of_decode h, i.opcode.byte, i.opcode,
      getElem?_of_decode h, Opcode.ofByte?_byte i.opcode, rfl, ?_⟩
    exact i.length_encode
  · intro i j h
    exact eq_of_encode_prefix h

/-- A jump back over itself, on a register operand. -/
def jumpBack : Instruction := .jumpIf .greater .b (.register .h) 1

/-- A writer that has written five bytes of code and has room for ten more. -/
def halfway : Writer := ⟨Array.replicate 19 9, .standard, 9, by decide, by decide⟩

/-- In front of the jump stands the opcode of a decrement, which would take the next byte along. The
two increments share no beginning, although their texts do. -/
theorem encoding_and_decoding_inverse_jumpBack :
    ((halfway.add jumpBack).1 = .ok () ∧ (halfway.add jumpBack).2.used = 14 ∧
      (halfway.add jumpBack).2.buffer.toList =
        List.replicate 9 9 ++ [0x8a, 1, 7, 1, 0] ++ List.replicate 5 9) ∧
    decode #[6, 0x8a, 1, 7, 1, 0, 8] 1 = .ok jumpBack ∧
    (1 + jumpBack.width ≤ 7 ∧
      ((#[6, 0x8a, 1, 7, 1, 0, 8] : Bytes).extract 1 (1 + jumpBack.width)).toList =
        jumpBack.encode) ∧
    ¬ (Instruction.increment .a).encode <+: (Instruction.incrementBy .a 0).encode := by
  have hdecode := encoding_and_decoding_inverse.2.1 jumpBack [6] [8]
  have hbytes := encoding_and_decoding_inverse.2.2.1 _ _ _ hdecode
  refine ⟨encoding_and_decoding_inverse.1 jumpBack halfway (by decide) (by decide), hdecode,
    ⟨hbytes.1, hbytes.2.1⟩, ?_⟩
  intro h
  have heq := encoding_and_decoding_inverse.2.2.2 _ _ h
  cases heq

end TurtleVM
