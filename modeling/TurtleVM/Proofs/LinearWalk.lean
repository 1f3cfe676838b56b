import Mathlib.Data.List.Chain
import TurtleVM.Bytecode.Verified
import TurtleVM.Proofs.Codec

/-! # What the linear walk reads

The walk reads the longest program that a code starts with. `locate` gives the instructions of a
program with their offsets, and `exists_reading` says that every code, sound or not, is such a
program followed by nothing or by an offset where decoding fails:

* `walk_of_toList_eq` — over the code of a program the walk meets just its instructions.
* `walk_of_stuck` — over other code it meets one more item, the undecodable offset.
* `walk_partitions_code` — what this means for the items that a walk gives one by one.
-/

namespace TurtleVM.Bytecode

/-! ### Instructions with their offsets -/

/-- The instructions of a program with their offsets, the first one at `offset`. -/
def locate : (offset : Nat) → List Instruction → List Located
  | _, [] => []
  | offset, i :: is => ⟨offset, i⟩ :: locate (offset + i.width) is

@[simp] theorem length_locate (offset : Nat) (is : List Instruction) :
    (locate offset is).length = is.length := by
  induction is generalizing offset with
  | nil => rfl
  | cons i is ih => simp [locate, ih]

/-- An instruction starts where those before it end. -/
theorem getElem?_locate (offset : Nat) (is : List Instruction) (k : Nat) :
    (locate offset is)[k]? = is[k]?.map fun i => ⟨offset + widthOf (is.take k), i⟩ := by
  induction is generalizing offset k with
  | nil => rfl
  | cons i is ih =>
    cases k with
    | zero => rfl
    | succ k =>
      simp only [locate, List.getElem?_cons_succ, ih, List.take_succ_cons, widthOf_cons,
        Nat.add_assoc]

theorem mem_locate_iff {offset : Nat} {is : List Instruction} {l : Located} :
    l ∈ locate offset is ↔
      ∃ k, is[k]? = some l.instruction ∧ l.offset = offset + widthOf (is.take k) := by
  obtain ⟨start, i⟩ := l
  simp only [List.mem_iff_getElem?, getElem?_locate, Option.map_eq_some_iff, Located.mk.injEq]
  constructor
  · intro h
    obtain ⟨k, j, hj, rfl, rfl⟩ := h
    exact ⟨k, hj, rfl⟩
  · intro h
    obtain ⟨k, hk, rfl⟩ := h
    exact ⟨k, i, hk, rfl, rfl⟩

theorem locate_append (offset : Nat) (is js : List Instruction) :
    locate offset (is ++ js) = locate offset is ++ locate (offset + widthOf is) js := by
  induction is generalizing offset with
  | nil => simp [locate]
  | cons i is ih => simp [locate, ih, Nat.add_assoc]

/-! ### The items of a walk -/

variable {code : Bytes} {offset : Nat} {is : List Instruction}

/-- A walk over the encodings of a program meets its instructions, then goes on behind them. -/
theorem items_of_spells (h : Spells code offset (codeOf is)) :
    (Walk.mk code offset false).items =
      (locate offset is).map .ok ++ (Walk.mk code (offset + widthOf is) false).items := by
  induction is generalizing offset with
  | nil => rfl
  | cons i is ih =>
    rw [codeOf_cons, spells_append, Instruction.length_encode] at h
    have hlt : offset < code.size := h.1.lt_size
    have hnext : (Walk.mk code offset false).next? =
        some (.ok ⟨offset, i⟩, ⟨code, offset + i.width, false⟩) := by
      simp [Walk.next?, Nat.not_le.mpr hlt, decode_of_spells_encode h.1]
    rw [Walk.items_of_some hnext, ih h.2, widthOf_cons, Nat.add_assoc]
    rfl

theorem items_of_size_le (h : code.size ≤ offset) :
    (Walk.mk code offset false).items = [] := by
  apply Walk.items_of_none
  simp [Walk.next?, h]

theorem items_of_decode_error {e : DecodeError} (hlt : offset < code.size)
    (he : decode code offset = .error e) :
    (Walk.mk code offset false).items = [.error ⟨offset, e⟩] := by
  have hnext : (Walk.mk code offset false).next? =
      some (.error ⟨offset, e⟩, ⟨code, offset, true⟩) := by
    simp [Walk.next?, Nat.not_le.mpr hlt, he]
  have hend : (Walk.mk code offset true).next? = none := by
    simp [Walk.next?]
  rw [Walk.items_of_some hnext, Walk.items_of_none hend]

/-! ### Every code is read up to its end or to a bad offset -/

/-- A program at the start of the code, behind which decoding fails. -/
structure Stuck (code : Bytes) (is : List Instruction) (e : DecodeError) : Prop where
  spells : Spells code 0 (codeOf is)
  lt_size : widthOf is < code.size
  error : decode code (widthOf is) = .error e

/-- Over the code of a program the walk meets just its instructions. -/
theorem walk_of_toList_eq (h : code.toList = codeOf is) :
    walk code = (locate 0 is).map .ok := by
  have hlen : (codeOf is).length = code.size := by rw [← h, Array.length_toList]
  have hspells := (spells_zero_iff hlen).mpr h
  rw [length_codeOf] at hlen
  show (Walk.mk code 0 false).items = _
  rw [items_of_spells hspells, items_of_size_le (by omega), List.append_nil]

/-- Where decoding fails behind a program, the walk meets the program and the failure. -/
theorem walk_of_stuck {e : DecodeError} (h : Stuck code is e) :
    walk code = (locate 0 is).map .ok ++ [.error ⟨widthOf is, e⟩] := by
  have hspells := items_of_spells h.spells
  rw [Nat.zero_add, items_of_decode_error h.lt_size h.error] at hspells
  exact hspells

/-- From every offset on there is a program up to the end of the code or to a bad offset. -/
theorem exists_spells_from (code : Bytes) (offset : Nat) (h : offset ≤ code.size) :
    ∃ is, Spells code offset (codeOf is) ∧
      (offset + widthOf is = code.size ∨
        offset + widthOf is < code.size ∧ ∃ e, decode code (offset + widthOf is) = .error e) := by
  -- Induction on the bytes left; a decoded instruction leaves fewer.
  induction hn : code.size - offset using Nat.strongRecOn generalizing offset with
  | ind n ih =>
    subst hn
    by_cases hend : offset = code.size
    · exact ⟨[], spells_nil, .inl hend⟩
    · cases hi : decode code offset with
      | error e => exact ⟨[], spells_nil, .inr ⟨by simp; omega, e, hi⟩⟩
      | ok i =>
        have hle := add_width_le_of_decode hi
        have hpos := i.width_pos
        obtain ⟨is, his, hrest⟩ := ih _ (by omega) (offset + i.width) hle rfl
        refine ⟨i :: is, ?_, ?_⟩
        · rw [codeOf_cons, spells_append, Instruction.length_encode]
          exact ⟨spells_encode_of_decode hi, his⟩
        · rw [widthOf_cons, ← Nat.add_assoc]
          exact hrest

/-- Every code is the code of a program, or starts with one behind which decoding fails. -/
theorem exists_reading (code : Bytes) :
    (∃ is, code.toList = codeOf is) ∨ ∃ is e, Stuck code is e := by
  obtain ⟨is, his, hend | ⟨hlt, e, he⟩⟩ := exists_spells_from code 0 (Nat.zero_le _)
  · rw [Nat.zero_add] at hend
    exact .inl ⟨is, (spells_zero_iff (by rw [length_codeOf, hend])).mp his⟩
  · rw [Nat.zero_add] at hlt he
    exact .inr ⟨is, e, his, hlt, he⟩

/-! ### The instructions of a code -/

theorem mapM_id_map_ok {ε α : Type} (xs : List α) :
    (xs.map Except.ok : List (Except ε α)).mapM id = .ok xs := by
  induction xs with
  | nil => rfl
  | cons x xs ih => rw [List.map_cons, List.mapM_cons, ih]; rfl

theorem mapM_id_map_ok_append_error {ε α : Type} (xs : List α) (e : ε) :
    (xs.map Except.ok ++ [.error e] : List (Except ε α)).mapM id = .error e := by
  induction xs with
  | nil => rfl
  | cons x xs ih => rw [List.map_cons, List.cons_append, List.mapM_cons, ih]; rfl

theorem instructions_of_toList_eq (h : code.toList = codeOf is) :
    instructions code = .ok (locate 0 is) := by
  rw [instructions, walk_of_toList_eq h, mapM_id_map_ok]

theorem instructions_of_stuck {e : DecodeError} (h : Stuck code is e) :
    instructions code = .error ⟨widthOf is, e⟩ := by
  rw [instructions, walk_of_stuck h, mapM_id_map_ok_append_error]

/-! ### Items on request -/

namespace Walk

/-- The walk after it was asked for its next item. At the end it stays as it is. -/
def advance (w : Walk) : Walk :=
  match w.next? with
  | none => w
  | some (_, w') => w'

/-- What the walk answers when it has been asked for its next item `n` times before. -/
def answer : (n : Nat) → Walk → Option Item
  | 0, w => w.next?.map Prod.fst
  | n + 1, w => answer n w.advance

/-- Asked again and again, the walk gives its items in order, and then none ever after. -/
theorem answer_eq_getElem? (n : Nat) (w : Walk) : w.answer n = w.items[n]? := by
  induction n generalizing w with
  | zero =>
    cases h : w.next? with
    | none => simp [answer, h, items_of_none h]
    | some next => simp [answer, h, items_of_some h]
  | succ n ih =>
    rw [answer, ih]
    cases h : w.next? with
    | none => simp [advance, h, items_of_none h]
    | some next => simp [advance, h, items_of_some h]

end Walk

/-- Every instruction takes a byte at least. -/
theorem length_le_widthOf (is : List Instruction) : is.length ≤ widthOf is := by
  induction is with
  | nil => exact Nat.le_refl 0
  | cons i is ih =>
    have hpos := i.width_pos
    rw [List.length_cons, widthOf_cons]
    omega

theorem map_instruction_locate (offset : Nat) (is : List Instruction) :
    (locate offset is).map Located.instruction = is := by
  induction is generalizing offset with
  | nil => rfl
  | cons i is ih => rw [locate, List.map_cons, ih]

/-- Each instruction starts where the one before it ends. -/
theorem isChain_locate (offset : Nat) (is : List Instruction) :
    (locate offset is).IsChain fun l l' => l'.offset = l.offset + l.instruction.width := by
  induction is generalizing offset with
  | nil => exact .nil
  | cons i is ih =>
    cases is with
    | nil => exact .singleton _
    | cons j is => exact .cons_cons rfl (ih (offset + i.width))

theorem offset_of_mem_head?_locate {l : Located} (h : l ∈ (locate offset is).head?) :
    l.offset = offset := by
  cases is with
  | nil => cases h
  | cons i is =>
    obtain rfl := Option.some.inj h
    rfl

theorem take_widthOf_of_spells (h : Spells code 0 (codeOf is)) :
    code.toList.take (widthOf is) = codeOf is := by
  have htake := List.prefix_iff_eq_take.mp h
  rw [List.drop_zero, length_codeOf] at htake
  exact htake.symm

/-- **The walk partitions any code.** Asked for items, it gives those of `walk` in order and then
none ever after; they are no more than the code has bytes. The first instructions among them start
at offset 0 and each next one where the one before it ends, and their encodings are what stands in
the code up to some offset. This is either the end of the code, and then there are no other items,
or an offset before the end where decoding fails, and then the one other item is the last and tells
of this offset and this failure. -/
theorem walk_partitions_code (code : Bytes) :
    (∀ n, (Walk.start code).answer n = (walk code)[n]?) ∧
    (walk code).length ≤ code.size ∧
    ∃ (located : List Located) (stop : Nat),
      (∀ l ∈ located.head?, l.offset = 0) ∧
      (located.IsChain fun l l' => l'.offset = l.offset + l.instruction.width) ∧
      code.toList.take stop = codeOf (located.map Located.instruction) ∧
      ((stop = code.size ∧ walk code = located.map .ok) ∨
        (stop < code.size ∧ ∃ e, decode code stop = .error e ∧
          walk code = located.map .ok ++ [.error ⟨stop, e⟩])) := by
  refine ⟨fun n => Walk.answer_eq_getElem? n _, ?_⟩
  rcases exists_reading code with ⟨is, his⟩ | ⟨is, e, hstuck⟩
  · have hsize := size_of_toList_eq his
    refine ⟨?_, locate 0 is, widthOf is, fun l hl => offset_of_mem_head?_locate hl,
      isChain_locate 0 is, ?_, .inl ⟨hsize.symm, walk_of_toList_eq his⟩⟩
    · rw [walk_of_toList_eq his, List.length_map, length_locate, hsize]
      exact length_le_widthOf is
    · have hspells := (spells_zero_iff (by rw [length_codeOf, hsize])).mpr his
      rw [map_instruction_locate]
      exact take_widthOf_of_spells hspells
  · refine ⟨?_, locate 0 is, widthOf is, fun l hl => offset_of_mem_head?_locate hl,
      isChain_locate 0 is, ?_, .inr ⟨hstuck.lt_size, e, hstuck.error, walk_of_stuck hstuck⟩⟩
    · have hlength := length_le_widthOf is
      have hlt := hstuck.lt_size
      rw [walk_of_stuck hstuck, List.length_append, List.length_map, length_locate,
        List.length_singleton]
      omega
    · rw [map_instruction_locate]
      exact take_widthOf_of_spells hstuck.spells

end TurtleVM.Bytecode
