import TurtleVM.Image
import TurtleVM.Image.Writer
import TurtleVM.Proofs.Codec

/-! # What a writer leaves in its buffer

`Writer.Holds` says all there is to say of a buffer that is being written: the header, the bytes
written behind it, and whatever the buffer held before behind these. Every operation of a writer
keeps this form, also when it fails partway. `add_eq_ok_iff` tells which instructions are written in
full.
-/

namespace TurtleVM.Image

namespace Writer

/-- The buffer holds the header, then some bytes, then what it held at first. -/
structure Holds (w : Writer) (original : Bytes) (bytes : List UInt8) : Prop where
  used : w.used = 4 + bytes.length
  fits : w.used ≤ original.size
  contents : w.buffer.toList = w.size.headerBytes ++ bytes ++ original.toList.drop w.used

variable {w w' : Writer} {buffer original : Bytes} {bytes : List UInt8} {i : Instruction}

@[simp] theorem Holds.size_buffer (h : w.Holds original bytes) :
    w.buffer.size = original.size := by
  have hlength := congrArg List.length h.contents
  simp only [Array.length_toList, List.length_append, CanvasSize.length_headerBytes,
    CanvasSize.headerLength, List.length_drop] at hlength
  have hused := h.used
  have hfits := h.fits
  omega

/-- A writer is what it holds. -/
theorem Holds.unique (h : w.Holds original bytes) (h' : w'.Holds original bytes)
    (hsize : w'.size = w.size) : w' = w := by
  have hused : w'.used = w.used := h'.used.trans h.used.symm
  have hbuffer : w'.buffer = w.buffer := by
    rw [← Array.toList_inj, h'.contents, h.contents, hsize, hused]
  cases w
  cases w'
  simp_all

/-! ### The header -/

theorem toList_putHeader (h : 4 ≤ buffer.size) (size : CanvasSize) :
    (putHeader buffer size).toList = size.headerBytes ++ buffer.toList.drop 4 := by
  obtain ⟨a, b, c, d, rest, hbuffer⟩ :
      ∃ a b c d rest, buffer.toList = a :: b :: c :: d :: rest := by
    rcases hl : buffer.toList with _ | ⟨a, _ | ⟨b, _ | ⟨c, _ | ⟨d, rest⟩⟩⟩⟩
    all_goals
      have hlength := congrArg List.length hl
      simp only [Array.length_toList, List.length_cons, List.length_nil] at hlength
    · omega
    · omega
    · omega
    · omega
    · exact ⟨a, b, c, d, rest, rfl⟩
  simp [putHeader, CanvasSize.headerBytes, Word.bytes, Array.toList_setIfInBounds, hbuffer]

/-! ### Bytes -/

theorem putBytes_fst (bytes : List UInt8) (w : Writer) : (putBytes bytes w).1 =
    if w.used + bytes.length ≤ w.buffer.size then .ok () else .error .bufferTooSmall := by
  induction bytes generalizing w with
  | nil =>
    exact (if_pos w.used_le_size).symm
  | cons byte bytes ih =>
    unfold putBytes
    split
    · rw [ih, Array.size_set, List.length_cons, Nat.add_right_comm, Nat.add_assoc]
    · rename_i hfull
      rw [List.length_cons, if_neg (by omega)]

/-- Bytes go where the written part ends, as many as fit. -/
theorem toList_putBytes (bytes : List UInt8) (w : Writer) : (putBytes bytes w).2.buffer.toList =
    w.buffer.toList.take w.used ++ bytes.take (w.buffer.size - w.used) ++
      w.buffer.toList.drop (w.used + bytes.length) := by
  induction bytes generalizing w with
  | nil => simp [putBytes]
  | cons byte bytes ih =>
    obtain ⟨buffer, size, used, header_le, used_le⟩ := w
    simp only [putBytes]
    split
    · rename_i hroom
      have hlength : used < buffer.toList.length := by simpa using hroom
      -- Setting the first byte ends the written part with it and changes nothing behind it.
      have htake : (buffer.toList.set used byte).take (used + 1) =
          buffer.toList.take used ++ [byte] := by
        have hbefore : (buffer.toList.take used).length ≤ used := by
          rw [List.length_take]
          exact Nat.min_le_left _ _
        rw [List.take_add_one, List.take_set, List.set_eq_of_length_le hbefore,
          List.getElem?_set_self hlength]
        rfl
      have hdrop : (buffer.toList.set used byte).drop (used + 1 + bytes.length) =
          buffer.toList.drop (used + (bytes.length + 1)) := by
        rw [List.drop_set_of_lt (by omega), Nat.add_right_comm, Nat.add_assoc]
      have hroom' : buffer.size - used = buffer.size - (used + 1) + 1 := by omega
      rw [ih, Array.toList_set, Array.size_set, htake, hdrop, hroom', List.take_succ_cons,
        List.append_assoc _ [byte], List.singleton_append, List.length_cons]
    · -- The buffer is full, so no byte is taken.
      rename_i hfull
      have hused : used = buffer.size := by omega
      subst hused
      rw [List.take_of_length_le (by simp), List.drop_of_length_le (by simp)]
      simp

/-- Written bytes come behind those written before. -/
theorem Holds.putBytes (h : w.Holds original bytes) (new : List UInt8) :
    (w.putBytes new).2.Holds original (bytes ++ new.take (original.size - w.used)) := by
  have hsize := h.size_buffer
  have hused := h.used
  have hfits := h.fits
  have hlength : (w.size.headerBytes ++ bytes).length = w.used := by
    rw [List.length_append, CanvasSize.length_headerBytes, hused]
    rfl
  have hused' := used_putBytes new w
  rw [hsize] at hused'
  have htake : w.buffer.toList.take w.used = w.size.headerBytes ++ bytes := by
    rw [h.contents, List.take_left' hlength]
  -- Behind the new bytes, or behind the end, the buffer is as it was at first.
  have hdrop : w.buffer.toList.drop (w.used + new.length) =
      original.toList.drop (w.putBytes new).2.used := by
    have hend : original.toList.length = original.size := Array.length_toList
    rw [h.contents, ← hlength, List.drop_length_add_append, hlength, List.drop_drop,
      List.drop_eq_drop_iff, hused', hend]
    omega
  refine ⟨?_, ?_, ?_⟩
  · rw [hused', List.length_append, List.length_take]
    omega
  · rw [hused']
    exact Nat.min_le_right _ _
  · rw [toList_putBytes, putBytes_size, htake, hdrop, hsize, List.append_assoc _ bytes]

/-! ### Writers at work -/

theorem start_of_le (h : 4 ≤ buffer.size) :
    ∃ w, start buffer = .ok w ∧ w.size = .standard ∧ w.Holds buffer [] := by
  have hle : CanvasSize.headerLength ≤ buffer.size := h
  refine ⟨_, dif_pos hle, rfl, rfl, h, ?_⟩
  rw [toList_putHeader h, List.append_nil]
  rfl

theorem start_of_lt (h : buffer.size < 4) : start buffer = .error .bufferTooSmall :=
  dif_neg (Nat.not_le.mpr h)

theorem Holds.setSize (h : w.Holds original bytes) (size : CanvasSize) :
    (w.setSize size).Holds original bytes := by
  have hle : 4 ≤ w.buffer.size := Nat.le_trans w.header_le_used w.used_le_size
  have hbuffer : (w.setSize size).buffer.toList =
      size.headerBytes ++ (bytes ++ original.toList.drop w.used) := by
    show (putHeader w.buffer size).toList = _
    rw [toList_putHeader hle, h.contents, List.append_assoc, List.drop_left' (by rfl)]
  refine ⟨?_, ?_, ?_⟩
  · rw [setSize_used]
    exact h.used
  · rw [setSize_used]
    exact h.fits
  · rw [hbuffer, setSize_used, setSize_size, List.append_assoc]

@[simp] theorem add_size (i : Instruction) (w : Writer) : (w.add i).2.size = w.size := by
  simp only [Writer.add]
  split
  · rfl
  · exact putBytes_size _ _

/-- Adding an instruction writes it in full, or as far as it fits, or changes nothing because the
code would become too long. -/
theorem Holds.add_cases (h : w.Holds original bytes) (i : Instruction) :
    (bytes.length + i.width ≤ 65535 ∧ 4 + bytes.length + i.width ≤ original.size ∧
      (w.add i).1 = .ok () ∧ (w.add i).2.Holds original (bytes ++ i.encode)) ∨
    (bytes.length + i.width ≤ 65535 ∧ original.size < 4 + bytes.length + i.width ∧
      (w.add i).1 = .error .bufferTooSmall ∧
      (w.add i).2.Holds original (bytes ++ i.encode.take (original.size - (4 + bytes.length)))) ∨
    (65535 < bytes.length + i.width ∧
      w.add i = (.error (.codeTooLong (bytes.length + i.width)), w)) := by
  have hoffset : w.codeOffset = bytes.length := by
    rw [codeOffset, h.used]
    exact Nat.add_sub_cancel_left ..
  by_cases hshort : bytes.length + i.width ≤ 65535
  · have hadd : w.add i = w.putBytes i.encode := by
      unfold Writer.add
      rw [hoffset]
      exact if_neg (Nat.not_lt.mpr hshort)
    have hanswer := putBytes_fst i.encode w
    have hput := h.putBytes i.encode
    rw [h.size_buffer, h.used, Instruction.length_encode] at hanswer
    rw [h.used] at hput
    rw [hadd]
    by_cases hroom : 4 + bytes.length + i.width ≤ original.size
    · -- All bytes of the encoding are taken.
      rw [List.take_of_length_le (by rw [Instruction.length_encode]; omega)] at hput
      exact .inl ⟨hshort, hroom, hanswer.trans (if_pos hroom), hput⟩
    · exact .inr (.inl ⟨hshort, Nat.not_le.mp hroom, hanswer.trans (if_neg hroom), hput⟩)
  · refine .inr (.inr ⟨Nat.not_le.mp hshort, ?_⟩)
    unfold Writer.add
    rw [hoffset]
    exact if_pos (Nat.not_le.mp hshort)

/-- An instruction is written in full exactly if the code stays short and the buffer has room. -/
theorem Holds.add_eq_ok_iff (h : w.Holds original bytes) : w.add i = (.ok (), w') ↔
    bytes.length + i.width ≤ 65535 ∧ 4 + bytes.length + i.width ≤ original.size ∧
      w'.size = w.size ∧ w'.Holds original (bytes ++ i.encode) := by
  have hsize := add_size i w
  constructor
  · intro hok
    rw [hok] at hsize
    rcases h.add_cases i with ⟨hshort, hroom, -, hput⟩ | ⟨-, -, hfull, -⟩ | ⟨-, hlong⟩
    · rw [hok] at hput
      exact ⟨hshort, hroom, hsize, hput⟩
    · rw [hok] at hfull
      cases hfull
    · rw [hok] at hlong
      cases hlong
  · intro ⟨hshort, hroom, hsize', hput'⟩
    rcases h.add_cases i with ⟨-, -, hok, hput⟩ | ⟨-, hfull, -⟩ | ⟨hlong, -⟩
    · rw [hput.unique hput' (hsize'.trans hsize.symm), ← hok]
    · omega
    · omega

/-- There is a writer that holds given bytes, if the buffer has room for them. -/
theorem exists_holds (h : 4 + bytes.length ≤ original.size) (size : CanvasSize) :
    ∃ w : Writer, w.size = size ∧ w.Holds original bytes := by
  let contents := size.headerBytes ++ bytes ++ original.toList.drop (4 + bytes.length)
  have hlength : contents.length = original.size := by
    simp only [contents, List.length_append, CanvasSize.length_headerBytes,
      CanvasSize.headerLength, List.length_drop, Array.length_toList]
    omega
  exact ⟨⟨contents.toArray, size, 4 + bytes.length, Nat.le_add_right _ _, by
    rwa [List.size_toArray, hlength]⟩, rfl, rfl, h, rfl⟩

end Writer

/-! ### Loading -/

/-- A header in front of a code is loaded as such, unless the canvas is empty. -/
theorem load_of_toList_eq {bytes : Bytes} {size : CanvasSize} {code : List UInt8}
    (h : bytes.toList = size.headerBytes ++ code) (hsize : size.width ≠ 0 ∧ size.height ≠ 0) :
    load bytes = .ok ⟨some size, code.toArray⟩ := by
  obtain rfl : bytes = (size.headerBytes ++ code).toArray := Array.toList_inj.mp h
  have hlong : ¬ (size.headerBytes ++ code).toArray.size < CanvasSize.headerLength := by
    rw [List.size_toArray, List.length_append, CanvasSize.length_headerBytes]
    omega
  have hsides : CanvasSize.ofSides size.width size.height = .ok size :=
    if_neg (not_or.mpr hsize)
  rw [load, dif_neg hlong]
  simp [CanvasSize.headerBytes, Word.bytes, hsides, CanvasSize.headerLength, Functor.map,
    Except.map]

end TurtleVM.Image
