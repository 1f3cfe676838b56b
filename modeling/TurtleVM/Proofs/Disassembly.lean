import TurtleVM.Proofs.ImageWriting
import TurtleVM.Proofs.LinearWalk

/-! # Writing and disassembling

A writer turns a program into code, and the linear walk turns code into a program. Within the
65535 bytes that offsets reach, and in a buffer with room for the code, the two undo each other:
`writing_and_disassembling_inverse`.

`Writer.feed` hands instructions to a writer one after the other, and `walked` gives the
instructions that a walk meets.
-/

namespace TurtleVM

open Bytecode Image

namespace Image.Writer

/-! ### Handing over a program -/

/-- The writer after instructions are handed to it one after the other. -/
def feed (is : List Instruction) (w : Writer) : Writer := is.foldl (fun w i => (w.add i).2) w

/-- The code behind the header, as far as it is written. -/
def code (w : Writer) : Bytes := w.buffer.extract CanvasSize.headerLength w.used

/-- Every one of the instructions is written when its turn comes, and its width is what the offset
of the next one goes up by. -/
def Takes (w : Writer) (is : List Instruction) : Prop :=
  ∀ k i, is[k]? = some i →
    ((w.feed (is.take k)).add i).1 = .ok () ∧
      ((w.feed (is.take k)).add i).2.codeOffset = (w.feed (is.take k)).codeOffset + i.width

variable {w : Writer} {buffer original : Bytes} {bytes : List UInt8} {i : Instruction}
  {is : List Instruction}

theorem Holds.codeOffset_eq (h : w.Holds original bytes) : w.codeOffset = bytes.length := by
  have hused := h.used
  have hheader : CanvasSize.headerLength = 4 := rfl
  show w.used - CanvasSize.headerLength = bytes.length
  omega

theorem Holds.toList_code (h : w.Holds original bytes) : w.code.toList = bytes := by
  have hused : w.used - CanvasSize.headerLength = bytes.length := h.codeOffset_eq
  have hheader : w.size.headerBytes.length = CanvasSize.headerLength := w.size.length_headerBytes
  rw [code, Array.toList_extract, List.extract_eq_take_drop, h.contents, List.append_assoc,
    List.drop_left' hheader, hused, List.take_left' rfl]

/-- With room for it, an instruction is written behind the code so far. -/
theorem Holds.add_of_room (h : w.Holds original bytes) (hshort : bytes.length + i.width ≤ 65535)
    (hroom : 4 + bytes.length + i.width ≤ original.size) :
    (w.add i).1 = .ok () ∧ (w.add i).2.Holds original (bytes ++ i.encode) := by
  have hlength : 4 + (bytes ++ i.encode).length ≤ original.size := by
    rw [List.length_append, Instruction.length_encode]
    omega
  obtain ⟨w', hsize, hw'⟩ := exists_holds hlength w.size
  have hadd : w.add i = (.ok (), w') := h.add_eq_ok_iff.mpr ⟨hshort, hroom, hsize, hw'⟩
  rw [hadd]
  exact ⟨rfl, hw'⟩

/-- With room for all of it, a program is written behind the code so far. -/
theorem Holds.feed (h : w.Holds original bytes) (hshort : bytes.length + widthOf is ≤ 65535)
    (hroom : 4 + bytes.length + widthOf is ≤ original.size) :
    (w.feed is).Holds original (bytes ++ codeOf is) := by
  induction is generalizing w bytes with
  | nil =>
    rw [codeOf_nil, List.append_nil]
    exact h
  | cons i is ih =>
    rw [widthOf_cons] at hshort hroom
    have hfirst : (w.add i).2.Holds original (bytes ++ i.encode) :=
      (h.add_of_room (by omega) (by omega)).2
    have hlength : (bytes ++ i.encode).length = bytes.length + i.width := by
      rw [List.length_append, Instruction.length_encode]
    have hrest := ih hfirst (by omega) (by omega)
    rw [codeOf_cons, ← List.append_assoc]
    exact hrest

/-- A writer with room for a program takes all of it. -/
theorem Holds.takes (h : w.Holds original bytes) (hshort : bytes.length + widthOf is ≤ 65535)
    (hroom : 4 + bytes.length + widthOf is ≤ original.size) : w.Takes is := by
  intro k i hi
  -- Up to and with the instruction, the program is no longer than the whole.
  have hle : widthOf (is.take k) + i.width ≤ widthOf is := by
    rw [← widthOf_take_succ hi]
    exact widthOf_take_le is (k + 1)
  have hbefore : (w.feed (is.take k)).Holds original (bytes ++ codeOf (is.take k)) :=
    h.feed (by omega) (by omega)
  have hlength : (bytes ++ codeOf (is.take k)).length = bytes.length + widthOf (is.take k) := by
    rw [List.length_append, length_codeOf]
  obtain ⟨hok, hafter⟩ := hbefore.add_of_room (i := i) (by omega) (by omega)
  refine ⟨hok, ?_⟩
  rw [hafter.codeOffset_eq, hbefore.codeOffset_eq, List.length_append, Instruction.length_encode]

/-- A fresh writer takes a program that fits, and then holds its code. -/
theorem start_feed (hshort : widthOf is ≤ 65535) (hroom : 4 + widthOf is ≤ buffer.size) :
    ∃ w, start buffer = .ok w ∧ w.codeOffset = 0 ∧ w.Takes is ∧
      (w.feed is).code.toList = codeOf is := by
  obtain ⟨w, hstart, -, hw⟩ := start_of_le (show 4 ≤ buffer.size by omega)
  have hshort' : ([] : List UInt8).length + widthOf is ≤ 65535 := by simpa using hshort
  have hroom' : 4 + ([] : List UInt8).length + widthOf is ≤ buffer.size := by simpa using hroom
  exact ⟨w, hstart, hw.codeOffset_eq, hw.takes hshort' hroom',
    (hw.feed hshort' hroom').toList_code⟩

end Image.Writer

/-! ### Taking up a program -/

namespace Bytecode

variable {code : Bytes} {is : List Instruction}

/-- The instructions that the walk over a code meets. -/
def walked (code : Bytes) : List Instruction :=
  (walk code).filterMap fun item => item.toOption.map Located.instruction

theorem walked_of_toList_eq (h : code.toList = codeOf is) : walked code = is := by
  have hok : (fun l : Located => (Except.ok l : Item).toOption.map Located.instruction) =
      fun l => some l.instruction := rfl
  rw [walked, walk_of_toList_eq h, List.filterMap_map, Function.comp_def, hok,
    List.filterMap_eq_map', map_instruction_locate]

/-- Code that the walk reads without an error is the code of the program it meets. -/
theorem toList_eq_codeOf_walked (h : ∀ u, .error u ∉ walk code) :
    code.toList = codeOf (walked code) := by
  rcases exists_reading code with ⟨is, his⟩ | ⟨is, e, hstuck⟩
  · rw [walked_of_toList_eq his]
    exact his
  · -- A walk that gets stuck reports it.
    have hmem : .error ⟨widthOf is, e⟩ ∈ walk code := by
      rw [walk_of_stuck hstuck]
      simp
    exact absurd hmem (h _)

/-- The items of a walk over a program are its instructions, each at the sum of the widths of
those before it. -/
theorem getElem?_walk_of_toList_eq (h : code.toList = codeOf is) (k : Nat) :
    (walk code)[k]? = is[k]?.map fun i => .ok ⟨widthOf (is.take k), i⟩ := by
  rw [walk_of_toList_eq h, List.getElem?_map, getElem?_locate, Option.map_map]
  simp only [Nat.zero_add, Function.comp_def]

end Bytecode

/-- **Writing and disassembling are inverse.** A fresh writer with room for a program takes every
instruction of it, and the walk over the code that it writes meets just these instructions, each
at the sum of the widths of those before it. Code that the walk reads without an error is written
again, byte for byte, from the instructions that the walk meets. -/
theorem writing_and_disassembling_inverse :
    (∀ (is : List Instruction) (buffer : Bytes), widthOf is ≤ 65535 →
      4 + widthOf is ≤ buffer.size →
        ∃ w, Writer.start buffer = .ok w ∧ w.codeOffset = 0 ∧ w.Takes is ∧
          ∀ k, (walk (w.feed is).code)[k]? =
            is[k]?.map fun i => Except.ok (Located.mk (widthOf (is.take k)) i)) ∧
    (∀ code buffer : Bytes, code.size ≤ 65535 → 4 + code.size ≤ buffer.size →
      (∀ u, .error u ∉ walk code) →
        ∃ w, Writer.start buffer = .ok w ∧ w.Takes (walked code) ∧
          (w.feed (walked code)).code = code) := by
  constructor
  · intro is buffer hshort hroom
    obtain ⟨w, hstart, hoffset, htakes, hcode⟩ := Writer.start_feed hshort hroom
    exact ⟨w, hstart, hoffset, htakes, getElem?_walk_of_toList_eq hcode⟩
  · intro code buffer hshort hroom hread
    have hcode := toList_eq_codeOf_walked hread
    have hwidth : code.size = widthOf (walked code) := size_of_toList_eq hcode
    rw [hwidth] at hshort hroom
    obtain ⟨w, hstart, -, htakes, hwritten⟩ := Writer.start_feed hshort hroom
    exact ⟨w, hstart, htakes, Array.toList_inj.mp (hwritten.trans hcode.symm)⟩

/-- A jump over nothing, on a register operand, and a halt. -/
def hop : List Instruction := [.jumpIf .less .b (.register .c) 5, .halt]

/-- The code of `hop`. -/
def hopCode : Bytes := #[0x8e, 1, 2, 5, 0, 8]

theorem writing_and_disassembling_inverse_hop :
    (∃ w, Writer.start (Array.replicate 10 0) = .ok w ∧ w.codeOffset = 0 ∧ w.Takes hop ∧
      ∀ k, (walk (w.feed hop).code)[k]? =
        hop[k]?.map fun i => Except.ok (Located.mk (widthOf (hop.take k)) i)) ∧
    (∃ w, Writer.start (Array.replicate 10 0) = .ok w ∧ w.Takes (walked hopCode) ∧
      (w.feed (walked hopCode)).code = hopCode) := by
  have hread : ∀ u, .error u ∉ walk hopCode := by
    have hcode : hopCode.toList = codeOf hop := by decide
    rw [walk_of_toList_eq hcode]
    simp
  exact ⟨writing_and_disassembling_inverse.1 hop _ (by decide) (by decide),
    writing_and_disassembling_inverse.2 hopCode _ (by decide) (by decide) hread⟩

end TurtleVM
