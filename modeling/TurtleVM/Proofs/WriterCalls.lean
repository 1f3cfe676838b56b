import Mathlib.Data.List.Induction
import TurtleVM.Proofs.ImageWriting

/-! # Calls to a writer

A writer can be called on after it has failed. What its buffer then holds is told by the calls and
their answers alone: the size set last, the instructions whose writing was answered with success,
and, once an instruction has not fitted, as much of the first such instruction as fits. From then on
the buffer is full and nothing is written any more.

`Tells` is the invariant of a writer between two calls, `Tells.perform` is the step, and
`image_holds_accepted_instructions` is what follows for any calls.
-/

namespace TurtleVM.Image.Writer

/-! ### Calls and their answers -/

/-- What a writer can be asked to do. -/
inductive Call where
  | add (i : Instruction)
  | setSize (size : CanvasSize)

/-- What a call is answered. -/
abbrev Answer : Type := Except WriteError Unit

/-- Calls with their answers, in order. -/
abbrev History : Type := List (Call × Answer)

/-- Carries out a call. Setting the size always succeeds. -/
def perform (call : Call) (w : Writer) : Answer × Writer :=
  match call with
  | .add i => w.add i
  | .setSize size => (.ok (), w.setSize size)

/-- The writer after calls, whatever these were answered. -/
def after : List Call → Writer → Writer
  | [], w => w
  | call :: calls, w => after calls (w.perform call).2

/-- The calls with their answers. -/
def history : List Call → Writer → History
  | [], _ => []
  | call :: calls, w => (call, (w.perform call).1) :: history calls (w.perform call).2

variable {w : Writer} {buffer original : Bytes} {bytes : List UInt8} {i : Instruction}
variable {calls later : List Call} {call : Call} {told : History}

theorem after_append (calls later : List Call) (w : Writer) :
    w.after (calls ++ later) = (w.after calls).after later := by
  induction calls generalizing w with
  | nil => rfl
  | cons call calls ih => exact ih (w.perform call).2

theorem history_append (calls later : List Call) (w : Writer) :
    w.history (calls ++ later) = w.history calls ++ (w.after calls).history later := by
  induction calls generalizing w with
  | nil => rfl
  | cons call calls ih => exact congrArg (_ :: ·) (ih (w.perform call).2)

/-! ### What calls and answers tell -/

/-- The size that a call sets. -/
def Call.size? : Call → Option CanvasSize
  | add _ => none
  | setSize size => some size

/-- The size set last, the standard size if none has been set. -/
def lastSize (calls : List Call) : CanvasSize :=
  (calls.filterMap Call.size?).getLast?.getD .standard

/-- The instruction of a call, if writing it was answered with success. -/
def accepted? : Call × Answer → Option Instruction
  | (.add i, .ok ()) => some i
  | _ => none

/-- The instruction of a call, if the buffer was too small for it. -/
def unfitting? : Call × Answer → Option Instruction
  | (.add i, .error .bufferTooSmall) => some i
  | _ => none

/-- The instructions whose writing was answered with success. -/
def accepted (told : History) : List Instruction := told.filterMap accepted?

/-- The first instruction for which the buffer was too small. -/
def cut? (told : History) : Option Instruction := told.findSome? unfitting?

/-- As many bytes of the first instruction that did not fit as the buffer has room for. -/
def remnant (room : Nat) (told : History) : List UInt8 :=
  match cut? told with
  | none => []
  | some i => i.encode.take (room - (4 + Bytecode.widthOf (accepted told)))

theorem remnant_of_not_cut (room : Nat) (h : cut? told = none) : remnant room told = [] := by
  rw [remnant, h]

theorem remnant_of_cut {room : Nat} (h : cut? told = some i) :
    remnant room told = i.encode.take (room - (4 + Bytecode.widthOf (accepted told))) := by
  rw [remnant, h]

theorem lastSize_append_add (calls : List Call) (i : Instruction) :
    lastSize (calls ++ [.add i]) = lastSize calls := by
  simp [lastSize, Call.size?]

theorem lastSize_append_setSize (calls : List Call) (size : CanvasSize) :
    lastSize (calls ++ [.setSize size]) = size := by
  simp [lastSize, Call.size?]

theorem accepted_append_singleton (told : History) (item : Call × Answer) :
    accepted (told ++ [item]) = accepted told ++ (accepted? item).toList := by
  cases h : accepted? item <;> simp [accepted, h]

theorem cut?_append_singleton (told : History) (item : Call × Answer) :
    cut? (told ++ [item]) = (cut? told).or (unfitting? item) := by
  simp [cut?, List.findSome?_append]

/-- A call that is neither accepted nor the first not to fit tells nothing new. -/
theorem remnant_append_singleton (room : Nat) {item : Call × Answer} (h : accepted? item = none)
    (hcut : (cut? told).or (unfitting? item) = cut? told) :
    accepted (told ++ [item]) = accepted told ∧
      remnant room (told ++ [item]) = remnant room told := by
  have haccepted : accepted (told ++ [item]) = accepted told := by
    rw [accepted_append_singleton, h, Option.toList_none, List.append_nil]
  refine ⟨haccepted, ?_⟩
  unfold remnant
  rw [cut?_append_singleton, hcut, haccepted]

/-! ### Full buffers -/

/-- Nothing is added to a full buffer. -/
theorem Holds.add_of_full (h : w.Holds original bytes) (hfull : w.used = original.size)
    (i : Instruction) : (∃ e, (w.add i).1 = .error e) ∧ (w.add i).2 = w := by
  have hused := h.used
  rcases h.add_cases i with ⟨-, hroom, -, -⟩ | ⟨-, -, hanswer, hput⟩ | ⟨-, hadd⟩
  · have hpos := i.width_pos
    omega
  · -- No byte of the encoding is taken.
    have hnone : original.size - (4 + bytes.length) = 0 := by omega
    rw [hnone, List.take_zero, List.append_nil] at hput
    exact ⟨⟨_, hanswer⟩, h.unique hput (add_size i w)⟩
  · rw [hadd]
    exact ⟨⟨_, rfl⟩, rfl⟩

/-! ### The invariant -/

/-- What the calls and their answers tell of a writer that has started on a buffer. -/
structure Tells (w : Writer) (buffer : Bytes) (calls : List Call) (told : History) : Prop where
  size : w.size = lastSize calls
  holds : w.Holds buffer (Bytecode.codeOf (accepted told) ++ remnant buffer.size told)
  short : (Bytecode.codeOf (accepted told) ++ remnant buffer.size told).length ≤ 65535
  full : cut? told ≠ none → w.used = buffer.size

/-- A call that changes nothing but perhaps the size, and tells nothing new, keeps the invariant. -/
theorem Tells.keep {w' : Writer} {answer : Answer} (h : w.Tells buffer calls told)
    (haccepted : accepted? (call, answer) = none)
    (hcut : (cut? told).or (unfitting? (call, answer)) = cut? told)
    (hsize : w'.size = lastSize (calls ++ [call]))
    (hholds : w'.Holds buffer (Bytecode.codeOf (accepted told) ++ remnant buffer.size told)) :
    w'.Tells buffer (calls ++ [call]) (told ++ [(call, answer)]) := by
  obtain ⟨haccepted', hremnant⟩ :=
    remnant_append_singleton buffer.size haccepted hcut
  have hused : w'.used = w.used := hholds.used.trans h.holds.used.symm
  refine ⟨hsize, ?_, ?_, ?_⟩
  · rwa [haccepted', hremnant]
  · rw [haccepted', hremnant]
    exact h.short
  · rw [cut?_append_singleton, hcut, hused]
    exact h.full

/-- An instruction is accepted, and nothing has been cut. -/
theorem tells_of_accepted {w' : Writer} (hcut : cut? told = none)
    (hsize : w'.size = lastSize (calls ++ [.add i]))
    (hshort : Bytecode.widthOf (accepted told) + i.width ≤ 65535)
    (hput : w'.Holds buffer (Bytecode.codeOf (accepted told) ++ i.encode)) :
    w'.Tells buffer (calls ++ [.add i]) (told ++ [(.add i, .ok ())]) := by
  have haccepted : accepted (told ++ [(.add i, .ok ())]) = accepted told ++ [i] :=
    accepted_append_singleton ..
  have hcut' : cut? (told ++ [(.add i, .ok ())]) = none := by
    rw [cut?_append_singleton, hcut]
    rfl
  have hcode : Bytecode.codeOf (accepted (told ++ [(.add i, .ok ())])) ++
      remnant buffer.size (told ++ [(.add i, .ok ())]) =
        Bytecode.codeOf (accepted told) ++ i.encode := by
    rw [remnant_of_not_cut _ hcut', haccepted, Bytecode.codeOf_append, Bytecode.codeOf_cons,
      Bytecode.codeOf_nil, List.append_nil, List.append_nil]
  refine ⟨hsize, ?_, ?_, ?_⟩
  · rwa [hcode]
  · rwa [hcode, List.length_append, Bytecode.length_codeOf, Instruction.length_encode]
  · intro hne
    exact absurd hcut' hne

/-- An instruction is the first that does not fit. -/
theorem tells_of_cut {w' : Writer} (hcut : cut? told = none)
    (hsize : w'.size = lastSize (calls ++ [.add i]))
    (hshort : Bytecode.widthOf (accepted told) + i.width ≤ 65535)
    (hroom : 4 + Bytecode.widthOf (accepted told) ≤ buffer.size)
    (hfull : buffer.size < 4 + Bytecode.widthOf (accepted told) + i.width)
    (hput : w'.Holds buffer (Bytecode.codeOf (accepted told) ++
      i.encode.take (buffer.size - (4 + Bytecode.widthOf (accepted told))))) :
    w'.Tells buffer (calls ++ [.add i]) (told ++ [(.add i, .error .bufferTooSmall)]) := by
  have haccepted : accepted (told ++ [(.add i, .error .bufferTooSmall)]) = accepted told := by
    rw [accepted_append_singleton]
    exact List.append_nil _
  have hcut' : cut? (told ++ [(.add i, .error .bufferTooSmall)]) = some i := by
    rw [cut?_append_singleton, hcut]
    rfl
  have hcode : Bytecode.codeOf (accepted (told ++ [(.add i, .error .bufferTooSmall)])) ++
      remnant buffer.size (told ++ [(.add i, .error .bufferTooSmall)]) =
        Bytecode.codeOf (accepted told) ++
          i.encode.take (buffer.size - (4 + Bytecode.widthOf (accepted told))) := by
    rw [remnant_of_cut hcut', haccepted]
  have hlength := hput.used
  rw [List.length_append, List.length_take, Bytecode.length_codeOf,
    Instruction.length_encode] at hlength
  refine ⟨hsize, ?_, ?_, ?_⟩
  · rwa [hcode]
  · rw [hcode, List.length_append, List.length_take, Bytecode.length_codeOf,
      Instruction.length_encode]
    omega
  · intro _
    omega

/-- An added instruction is accepted, or the first not to fit, or leaves the writer as it is. -/
theorem Tells.add (h : w.Tells buffer calls told) (i : Instruction) :
    (w.add i).2.Tells buffer (calls ++ [.add i]) (told ++ [(.add i, (w.add i).1)]) := by
  have hsize : (w.add i).2.size = lastSize (calls ++ [.add i]) := by
    rw [add_size, h.size, lastSize_append_add]
  by_cases hcut : cut? told = none
  · have hbytes := remnant_of_not_cut buffer.size hcut
    have hroom : 4 + _ ≤ buffer.size := h.holds.used ▸ h.holds.fits
    have hadd := h.holds.add_cases i
    rw [hbytes, List.append_nil, Bytecode.length_codeOf] at hadd hroom
    rcases hadd with ⟨hshort, -, hanswer, hput⟩ | ⟨hshort, hfull, hanswer, hput⟩ | ⟨-, hadd⟩
    · rw [hanswer]
      exact tells_of_accepted hcut hsize hshort hput
    · rw [hanswer]
      exact tells_of_cut hcut hsize hshort hroom hfull hput
    · -- The code would become too long, so the writer stays as it is.
      rw [hadd]
      have hsize' : w.size = lastSize (calls ++ [.add i]) := by rwa [hadd] at hsize
      refine h.keep rfl ?_ hsize' h.holds
      rw [hcut]
      rfl
  · -- The buffer is full, so the writer stays as it is.
    obtain ⟨⟨e, hanswer⟩, hsame⟩ := h.holds.add_of_full (h.full hcut) i
    obtain ⟨j, hj⟩ := Option.ne_none_iff_exists'.mp hcut
    rw [hanswer]
    refine h.keep rfl ?_ hsize ?_
    · rw [hj]
      rfl
    · rw [hsame]
      exact h.holds

/-- One more call. -/
theorem Tells.perform (h : w.Tells buffer calls told) (call : Call) :
    (w.perform call).2.Tells buffer (calls ++ [call]) (told ++ [(call, (w.perform call).1)]) := by
  match call with
  | .add i => exact h.add i
  | .setSize size =>
    refine h.keep rfl (Option.or_none ..) ?_ (h.holds.setSize size)
    rw [lastSize_append_setSize]
    rfl

/-- What calls and answers tell of the writer after them. -/
theorem Tells.after (h : w.Tells buffer [] []) (calls : List Call) :
    (w.after calls).Tells buffer calls (w.history calls) := by
  -- Induction on the calls from the last: the invariant speaks of all calls so far.
  induction calls using List.reverseRecOn with
  | nil => exact h
  | append_singleton calls call ih =>
    rw [after_append, history_append]
    exact ih.perform call

/-! ### Any calls -/

/-- A buffer with room for the header can be written to. -/
theorem exists_start_tells (h : 4 ≤ buffer.size) :
    ∃ w, start buffer = .ok w ∧ w.Tells buffer [] [] := by
  obtain ⟨w, hstart, hsize, hholds⟩ := start_of_le h
  refine ⟨w, hstart, hsize, hholds, Nat.zero_le _, ?_⟩
  intro hne
  exact absurd rfl hne

theorem Tells.codeOffset_eq (h : w.Tells buffer calls told) : w.codeOffset =
    (Bytecode.codeOf (accepted told) ++ remnant buffer.size told).length := by
  rw [codeOffset, h.holds.used]
  exact Nat.add_sub_cancel_left ..

theorem Tells.used_eq (h : w.Tells buffer calls told) : w.used = 4 + w.codeOffset := by
  rw [h.codeOffset_eq, h.holds.used]

/-- A cut stays where it is. -/
theorem cut?_history_append (h : cut? (w.history calls) = some i) (later : List Call) :
    cut? (w.history (calls ++ later)) = some i := by
  rw [history_append, cut?, List.findSome?_append]
  exact congrArg (Option.or · _) h

/-- **What a writer holds after any calls**, failed ones included. The header has the size set last,
which is also the size reported. Behind it stand the encodings of the accepted instructions and as
much as fits of the first instruction that did not fit; all other bytes are as they were. Once an
instruction has not fitted, the buffer is full, and whatever is called, nothing more is accepted or
written. An instruction that would make the code too long changes nothing. The code never grows
beyond 65535 bytes or the buffer. -/
theorem image_holds_accepted_instructions {buffer : Bytes} (hroom : 4 ≤ buffer.size) :
    ∃ w₀, start buffer = .ok w₀ ∧ ∀ calls : List Call,
      let w := w₀.after calls
      let told := w₀.history calls
      w.descriptor = ⟨4 + w.codeOffset, lastSize calls⟩ ∧
      w.buffer.toList = (lastSize calls).headerBytes ++
        (Bytecode.codeOf (accepted told) ++ remnant buffer.size told) ++
          buffer.toList.drop (4 + w.codeOffset) ∧
      w.codeOffset = (Bytecode.codeOf (accepted told) ++ remnant buffer.size told).length ∧
      w.codeOffset ≤ 65535 ∧ w.codeOffset ≤ buffer.size - 4 ∧
      (∀ i, cut? told = some i → ∀ later, 4 + (w.after later).codeOffset = buffer.size ∧
        ∀ j, (∃ e, ((w.after later).add j).1 = .error e) ∧
          ((w.after later).add j).2 = w.after later) ∧
      (∀ i length, (w.add i).1 = .error (.codeTooLong length) → (w.add i).2 = w) := by
  obtain ⟨w₀, hstart, hw₀⟩ := exists_start_tells hroom
  refine ⟨w₀, hstart, ?_⟩
  intro calls w told
  have h : w.Tells buffer calls told := hw₀.after calls
  have hused := h.used_eq
  refine ⟨?_, ?_, h.codeOffset_eq, ?_, ?_, ?_, ?_⟩
  · rw [descriptor, hused, h.size]
  · rw [h.holds.contents, h.size, hused]
  · rw [h.codeOffset_eq]
    exact h.short
  · have hfits := h.holds.fits
    omega
  · intro i hcut later
    -- Later calls come behind these, and the cut stays.
    have hlater : (w.after later).Tells buffer (calls ++ later) (w₀.history (calls ++ later)) := by
      rw [← after_append]
      exact hw₀.after (calls ++ later)
    have hfull : (w.after later).used = buffer.size := by
      apply hlater.full
      rw [cut?_history_append hcut]
      exact Option.some_ne_none i
    refine ⟨hlater.used_eq.symm.trans hfull, ?_⟩
    intro j
    exact hlater.holds.add_of_full hfull j
  · intro i length hanswer
    rcases h.holds.add_cases i with ⟨-, -, hok, -⟩ | ⟨-, -, hfull, -⟩ | ⟨-, hadd⟩
    · rw [hok] at hanswer
      cases hanswer
    · rw [hfull] at hanswer
      cases hanswer
    · rw [hadd]

/-- A writer that has just started on eight bytes. -/
def onEightBytes : Writer :=
  ⟨#[0, 2, 0, 2, 170, 170, 170, 170], .standard, 4, by decide, by decide⟩

/-- Calls of which the third instruction finds one byte left, and the last one none. -/
def cutShort : List Call :=
  [.add .draw, .setSize ⟨3, 1⟩, .add (.increment .a), .add (.jumpIfNonZero .b 0), .add .move]

/-- Of the jump only the opcode fits, and no later call writes behind it. -/
theorem image_holds_accepted_instructions_of_cutShort :
    4 ≤ (Array.replicate 8 170 : Bytes).size ∧
      start (Array.replicate 8 170) = .ok onEightBytes ∧
      (onEightBytes.after cutShort).buffer.toList = [3, 0, 1, 0, 1, 4, 0, 7] ∧
      cut? (onEightBytes.history cutShort) = some (.jumpIfNonZero .b 0) ∧
      ∀ later j, (((onEightBytes.after cutShort).after later).add j).2 =
        (onEightBytes.after cutShort).after later := by
  have hroom : 4 ≤ (Array.replicate 8 170 : Bytes).size := by decide
  have hstart : start (Array.replicate 8 170) = .ok onEightBytes := rfl
  have hcut : cut? (onEightBytes.history cutShort) = some (.jumpIfNonZero .b 0) := rfl
  obtain ⟨w₀, hw₀, hall⟩ := image_holds_accepted_instructions hroom
  obtain rfl : w₀ = onEightBytes := Except.ok.inj (hw₀.symm.trans hstart)
  obtain ⟨-, hbuffer, -, -, -, hfull, -⟩ := hall cutShort
  refine ⟨hroom, hstart, hbuffer.trans (by decide), hcut, ?_⟩
  intro later j
  exact ((hfull _ hcut later).2 j).2

end TurtleVM.Image.Writer
