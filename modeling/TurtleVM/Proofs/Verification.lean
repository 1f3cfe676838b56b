import TurtleVM.Proofs.LinearWalk
import TurtleVM.Proofs.MarkedOffsets

/-! # What verification accepts

A code is well formed if it is the code of a program whose jumps all land on one of its
instructions or at its end. `verify_correct` is the main statement: verification accepts exactly
the well-formed codes and counts their instructions; of any other code it blames the offset where
the linear walk gets stuck, or else the first jump that does not land.

The set of landing places holds only offsets below 65536. That loses nothing, because a target is
a 16-bit word: `contains_landings_iff`.
-/

namespace TurtleVM.Bytecode

/-! ### Landing places -/

/-- A target is the start of one of the instructions of a program, or its end. -/
def Lands (is : List Instruction) (target : UInt16) : Prop :=
  (∃ k < is.length, target.toNat = widthOf (is.take k)) ∨ target.toNat = widthOf is

/-- Every jump of the program lands. -/
def JumpsLand (is : List Instruction) : Prop :=
  ∀ i ∈ is, ∀ target, i.jumpTarget? = some target → Lands is target

variable {code : Bytes} {is : List Instruction}

theorem Lands.le {target : UInt16} (h : Lands is target) : target.toNat ≤ widthOf is := by
  rcases h with ⟨k, -, hk⟩ | hend
  · rw [hk]
    exact widthOf_take_le is k
  · exact Nat.le_of_eq hend

/-- The landing places that verification collects are those of the program. -/
theorem contains_landings_iff (h : code.toList = codeOf is) (target : UInt16) :
    (landings code (locate 0 is)).contains target.toNat = true ↔ Lands is target := by
  have hlt : target.toNat < addressable := target.toNat_lt
  rw [landings, OffsetSet.contains_mark_iff, OffsetSet.ofList, OffsetSet.contains_foldl_mark_iff,
    size_of_toList_eq h]
  simp only [OffsetSet.contains_empty, Bool.false_eq_true, false_or, hlt, and_true, List.mem_map,
    mem_locate_iff, Nat.zero_add]
  constructor
  · intro h
    rcases h with ⟨l, ⟨k, hk, hl⟩, hoffset⟩ | hend
    · exact .inl ⟨k, (List.getElem?_eq_some_iff.mp hk).1, by rw [← hoffset, hl]⟩
    · exact .inr hend
  · intro h
    rcases h with ⟨k, hk, htarget⟩ | hend
    · exact .inl ⟨⟨_, is[k]⟩, ⟨k, List.getElem?_eq_getElem hk, rfl⟩, htarget.symm⟩
    · exact .inr hend

/-! ### Defects of jumps -/

/-- The defect of a jump that does not land. -/
def badTarget (code : Bytes) (offset : Nat) (target : UInt16) : Defect :=
  if code.size < target.toNat then .targetOutOfBounds offset target
  else .targetMisaligned offset target

theorem jumpDefect?_of_lands (h : code.toList = codeOf is) {l : Located}
    (hl : ∀ target, l.instruction.jumpTarget? = some target → Lands is target) :
    jumpDefect? code (landings code (locate 0 is)) l = none := by
  unfold jumpDefect?
  split
  · rfl
  · rename_i target htarget
    have hlands := hl target htarget
    have hle := hlands.le
    rw [← size_of_toList_eq h] at hle
    rw [if_neg (Nat.not_lt.mpr hle), if_pos ((contains_landings_iff h target).mpr hlands)]

theorem jumpDefect?_of_not_lands (h : code.toList = codeOf is) {l : Located} {target : UInt16}
    (htarget : l.instruction.jumpTarget? = some target) (hbad : ¬ Lands is target) :
    jumpDefect? code (landings code (locate 0 is)) l = some (badTarget code l.offset target) := by
  have hnot := mt (contains_landings_iff h target).mp hbad
  simp only [jumpDefect?, htarget, badTarget, hnot]
  split <;> rfl

/-! ### Verification -/

theorem verify_of_stuck {e : DecodeError} (h : Stuck code is e) :
    verify code = .error (.undecodable ⟨widthOf is, e⟩) := by
  rw [verify, instructions_of_stuck h]

theorem verify_of_jumpsLand (h : code.toList = codeOf is) (hjumps : JumpsLand is) :
    verify code = .ok is.length := by
  have hnone : (locate 0 is).findSome? (jumpDefect? code (landings code (locate 0 is))) = none := by
    rw [List.findSome?_eq_none_iff]
    intro l hl
    obtain ⟨k, hk, -⟩ := mem_locate_iff.mp hl
    exact jumpDefect?_of_lands h (hjumps _ (List.mem_of_getElem? hk))
  rw [verify, instructions_of_toList_eq h]
  simp only [hnone, length_locate]

/-- The first jump that does not land is the one that is blamed. -/
theorem verify_of_first_bad_jump {before after : List Instruction} {i : Instruction}
    {target : UInt16} (h : code.toList = codeOf (before ++ i :: after))
    (htarget : i.jumpTarget? = some target) (hbad : ¬ Lands (before ++ i :: after) target)
    (hbefore : ∀ j ∈ before, ∀ t, j.jumpTarget? = some t → Lands (before ++ i :: after) t) :
    verify code = .error (badTarget code (widthOf before) target) := by
  have hsplit : locate 0 (before ++ i :: after) =
      locate 0 before ++ ⟨widthOf before, i⟩ :: locate (widthOf before + i.width) after := by
    rw [locate_append, Nat.zero_add]
    rfl
  have hsome : (locate 0 (before ++ i :: after)).findSome?
      (jumpDefect? code (landings code (locate 0 (before ++ i :: after)))) =
        some (badTarget code (widthOf before) target) := by
    refine List.findSome?_eq_some_iff.mpr
      ⟨_, _, _, hsplit, jumpDefect?_of_not_lands h htarget hbad, fun l hl => ?_⟩
    obtain ⟨k, hk, -⟩ := mem_locate_iff.mp hl
    exact jumpDefect?_of_lands h (hbefore _ (List.mem_of_getElem? hk))
  rw [verify, instructions_of_toList_eq h]
  simp only [hsome]

/-- A program has a first jump that does not land unless all its jumps land. -/
theorem exists_first_bad_jump (h : ¬ JumpsLand is) :
    ∃ before i after target, is = before ++ i :: after ∧ i.jumpTarget? = some target ∧
      ¬ Lands is target ∧ ∀ j ∈ before, ∀ t, j.jumpTarget? = some t → Lands is t := by
  -- Induction on the beginning of the program that has been looked at.
  suffices hscan : ∀ before rest, is = before ++ rest →
      (∀ j ∈ before, ∀ t, j.jumpTarget? = some t → Lands is t) →
      ∃ before i after target, is = before ++ i :: after ∧ i.jumpTarget? = some target ∧
        ¬ Lands is target ∧ ∀ j ∈ before, ∀ t, j.jumpTarget? = some t → Lands is t from
    hscan [] is rfl (by simp)
  intro before rest
  induction rest generalizing before with
  | nil =>
    intro heq hall
    rw [List.append_nil] at heq
    exact absurd (heq ▸ hall) h
  | cons i rest ih =>
    intro heq hall
    by_cases hi : ∃ target, i.jumpTarget? = some target ∧ ¬ Lands is target
    · obtain ⟨target, htarget, hbad⟩ := hi
      exact ⟨before, i, rest, target, heq, htarget, hbad, hall⟩
    · -- The instruction is fine, so the search goes on behind it.
      refine ih (before ++ [i]) (by simp [heq]) fun j hj t ht => ?_
      rcases List.mem_append.mp hj with hj | hj
      · exact hall j hj t ht
      · rw [List.mem_singleton] at hj
        subst hj
        exact Classical.byContradiction fun hbad => hi ⟨t, ht, hbad⟩

/-- Code is accepted exactly if it is the code of a program whose jumps all land, and the answer
counts the instructions. -/
theorem verify_eq_ok_iff {n : Nat} :
    verify code = .ok n ↔ ∃ is, is.length = n ∧ code.toList = codeOf is ∧ JumpsLand is := by
  constructor
  · intro hok
    rcases exists_reading code with ⟨is, his⟩ | ⟨is, e, hstuck⟩
    · by_cases hjumps : JumpsLand is
      · rw [verify_of_jumpsLand his hjumps] at hok
        exact ⟨is, Except.ok.inj hok, his, hjumps⟩
      · obtain ⟨before, i, after, target, rfl, htarget, hbad, hbefore⟩ :=
          exists_first_bad_jump hjumps
        rw [verify_of_first_bad_jump his htarget hbad hbefore] at hok
        cases hok
    · rw [verify_of_stuck hstuck] at hok
      cases hok
  · intro h
    obtain ⟨is, rfl, his, hjumps⟩ := h
    exact verify_of_jumpsLand his hjumps

/-- An undecodable offset on the walk is where decoding fails behind a program. -/
theorem stuck_of_mem_walk {offset : Nat} {e : DecodeError}
    (h : .error ⟨offset, e⟩ ∈ walk code) : ∃ is, Stuck code is e ∧ widthOf is = offset := by
  rcases exists_reading code with ⟨is, his⟩ | ⟨is, e', hstuck⟩
  · rw [walk_of_toList_eq his] at h
    simp at h
  · rw [walk_of_stuck hstuck] at h
    simp only [List.mem_append, List.mem_map, reduceCtorEq, and_false, exists_false, false_or,
      List.mem_singleton, Except.error.injEq, Undecodable.mk.injEq] at h
    obtain ⟨rfl, rfl⟩ := h
    exact ⟨is, hstuck, rfl⟩

/-- **Verification is exact.** Accepted are just the codes of programs whose jumps all land, with
the number of instructions. If the walk meets an undecodable offset, that is the answer, with the
error of decoding there. Every other refusal names the first jump that does not land, and tells
whether its target lies beyond the end. -/
theorem verify_correct (code : Bytes) :
    (∀ n, verify code = .ok n ↔
      ∃ is, is.length = n ∧ code.toList = codeOf is ∧
        ∀ i ∈ is, ∀ target, i.jumpTarget? = some target →
          (∃ k < is.length, target.toNat = widthOf (is.take k)) ∨ target.toNat = code.size) ∧
    (∀ offset e, .error ⟨offset, e⟩ ∈ walk code →
      decode code offset = .error e ∧ verify code = .error (.undecodable ⟨offset, e⟩)) ∧
    (∀ d, verify code = .error d →
      (∃ u, .error u ∈ walk code ∧ d = .undecodable u) ∨
      ∃ before i after target, code.toList = codeOf (before ++ i :: after) ∧
        i.jumpTarget? = some target ∧ ¬ Lands (before ++ i :: after) target ∧
        (∀ j ∈ before, ∀ t, j.jumpTarget? = some t → Lands (before ++ i :: after) t) ∧
        d = if code.size < target.toNat then .targetOutOfBounds (widthOf before) target
          else .targetMisaligned (widthOf before) target) := by
  refine ⟨fun n => ?_, fun offset e hitem => ?_, fun d hd => ?_⟩
  · rw [verify_eq_ok_iff]
    constructor
    · intro ⟨is, hn, his, hjumps⟩
      rw [size_of_toList_eq his]
      exact ⟨is, hn, his, hjumps⟩
    · intro ⟨is, hn, his, hjumps⟩
      rw [size_of_toList_eq his] at hjumps
      exact ⟨is, hn, his, hjumps⟩
  · obtain ⟨is, hstuck, rfl⟩ := stuck_of_mem_walk hitem
    exact ⟨hstuck.error, verify_of_stuck hstuck⟩
  · rcases exists_reading code with ⟨is, his⟩ | ⟨is, e, hstuck⟩
    · -- The walk reaches the end, so some jump does not land.
      right
      have hjumps : ¬ JumpsLand is := by
        intro hjumps
        rw [verify_of_jumpsLand his hjumps] at hd
        cases hd
      obtain ⟨before, i, after, target, rfl, htarget, hbad, hbefore⟩ :=
        exists_first_bad_jump hjumps
      rw [verify_of_first_bad_jump his htarget hbad hbefore] at hd
      exact ⟨before, i, after, target, his, htarget, hbad, hbefore, (Except.error.inj hd).symm⟩
    · left
      rw [verify_of_stuck hstuck] at hd
      refine ⟨⟨widthOf is, e⟩, ?_, (Except.error.inj hd).symm⟩
      rw [walk_of_stuck hstuck]
      simp

end TurtleVM.Bytecode
