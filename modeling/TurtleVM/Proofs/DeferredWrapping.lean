import Mathlib.Data.Int.ModEq
import TurtleVM.Proofs.Codec
import TurtleVM.Proofs.ControlStates
import TurtleVM.Proofs.InstructionTable

/-! # Wrap-around at the end

Stores, additions, subtractions and multiplications may be done on numbers of any size and reduced
to signed words once, at the end: numbers that are congruent modulo 2^32 stay so
(`Instruction.Defers.compute_congr`). Only a division or the condition of a jump can tell them
apart, so straight-line code without divisions computes the same registers both ways:
`wrapping_can_be_deferred`.
-/

namespace TurtleVM

/-! ### Instructions on numbers of any size -/

namespace Instruction

/-- The numbers in the registers after an instruction that wraps nothing around. -/
def compute (i : Instruction) (numbers : Register → Int) (r : Register) : Int :=
  match i.result? numbers with
  | some (dest, n) => if dest = r then n else numbers r
  | none => numbers r

/-- The numbers after instructions one after the other. -/
def computeAll (is : List Instruction) (numbers : Register → Int) : Register → Int :=
  is.foldl (fun numbers i => i.compute numbers) numbers

/-- The instruction neither divides nor jumps nor halts. Wrapping its result around can wait. -/
def Defers : Instruction → Prop
  | draw | move | increment _ | incrementBy _ _ | decrement _ | multiplyInto _ _ _ => True
  | arithmetic f _ _ => f ≠ .divide
  | halt | jumpIfNonZero _ _ | jumpIf _ _ _ _ => False

variable {i : Instruction} {is : List Instruction} {numbers numbers' : Register → Int}

@[simp] theorem computeAll_append_singleton (is : List Instruction) (i : Instruction)
    (numbers : Register → Int) :
    computeAll (is ++ [i]) numbers = i.compute (computeAll is numbers) := by
  simp [computeAll]

theorem Defers.ne_halt (h : i.Defers) : i ≠ .halt := by
  intro hi
  rw [hi] at h
  exact h

theorem Defers.not_dividesByZero (h : i.Defers) : ¬ i.DividesByZero numbers := by
  cases i with
  | arithmetic f r rhs =>
    cases f with
    | divide => exact absurd rfl h
    | store | add | subtract | multiply => exact id
  | _ => exact id

theorem Defers.not_jumpsTo (h : i.Defers) (target : UInt16) : ¬ i.JumpsTo numbers target := by
  cases i with
  | jumpIfNonZero | jumpIf => exact absurd h id
  | _ => exact id

end Instruction

/-! ### Numbers that are congruent -/

/-- Each register holds numbers that are the same modulo 2^32. -/
def Congruent (numbers numbers' : Register → Int) : Prop :=
  ∀ r, numbers r ≡ numbers' r [ZMOD 2 ^ 32]

section Congruent

variable {i : Instruction} {numbers numbers' : Register → Int}

/-- Congruent numbers are reduced to the same word. -/
theorem bmod_congr {a b : Int} (h : a ≡ b [ZMOD 2 ^ 32]) :
    a.bmod (2 ^ 32) = b.bmod (2 ^ 32) := by
  rw [← Int.emod_bmod a, ← Int.emod_bmod b]
  exact congrArg (Int.bmod · (2 ^ 32)) h

/-- The number in a register is a signed word already. -/
theorem Registers.bmod_numbers (rs : Registers) (r : Register) :
    (rs.numbers r).bmod (2 ^ 32) = rs.numbers r := Int32.toInt_bmod (rs.get r)

theorem bmod_modEq (a : Int) : a.bmod (2 ^ 32) ≡ a [ZMOD 2 ^ 32] := Int.bmod_emod

theorem Congruent.number (h : Congruent numbers numbers') (rhs : Operand) :
    rhs.number numbers ≡ rhs.number numbers' [ZMOD 2 ^ 32] := by
  cases rhs with
  | immediate value => exact Int.ModEq.refl _
  | register r => exact h r

/-- All arithmetic but division respects congruence. -/
theorem Arithmetic.exact_congr {f : Arithmetic} (hf : f ≠ .divide) {a a' b b' : Int}
    (ha : a ≡ a' [ZMOD 2 ^ 32]) (hb : b ≡ b' [ZMOD 2 ^ 32]) :
    f.exact a b ≡ f.exact a' b' [ZMOD 2 ^ 32] := by
  cases f with
  | store => exact hb
  | add => exact ha.add hb
  | subtract => exact ha.sub hb
  | multiply => exact ha.mul hb
  | divide => exact absurd rfl hf

/-- A new number in one register, congruent on both sides. -/
theorem Congruent.put (h : Congruent numbers numbers') {n n' : Int} (hn : n ≡ n' [ZMOD 2 ^ 32])
    (dest : Register) :
    Congruent (fun r => if dest = r then n else numbers r)
      (fun r => if dest = r then n' else numbers' r) := by
  intro r
  by_cases hr : dest = r
  · simpa only [if_pos hr] using hn
  · simpa only [if_neg hr] using h r

/-- An instruction that neither divides nor jumps respects congruence. -/
theorem Instruction.Defers.compute_congr (hi : i.Defers) (h : Congruent numbers numbers') :
    Congruent (i.compute numbers) (i.compute numbers') := by
  cases i with
  | draw | move => exact h
  | increment r => exact h.put ((h r).add_right 1) r
  | incrementBy r amount => exact h.put ((h r).add_right amount.toNat) r
  | decrement r => exact h.put ((h r).sub_right 1) r
  | arithmetic f r rhs => exact h.put (Arithmetic.exact_congr hi (h r) (h.number rhs)) r
  | multiplyInto dest src factor => exact h.put ((h src).mul_right factor.toNat) dest
  | halt | jumpIfNonZero | jumpIf => exact absurd hi id

end Congruent

/-! ### Steps -/

namespace Machine

variable {m : Machine} {i : Instruction} {k : Nat}

/-- The instructions that the first `k` steps execute. -/
def executed (k : Nat) (m : Machine) : List Instruction :=
  (List.range k).filterMap fun j => (m.after j).fetch?

theorem executed_succ (k : Nat) (m : Machine) :
    m.executed (k + 1) = m.executed k ++ (m.after k).fetch?.toList := by
  rw [executed, List.range_succ, List.filterMap_append]
  cases h : (m.after k).fetch? <;> simp [executed, h]

theorem length_executed_le (k : Nat) (m : Machine) : (m.executed k).length ≤ k := by
  have hle := List.length_filterMap_le (fun j => (m.after j).fetch?) (List.range k)
  rwa [List.length_range] at hle

/-- An instruction that neither divides nor jumps nor halts is performed and leads to the one behind
it. -/
theorem step_of_defers (hi : m.fetch? = some i) (hdefers : i.Defers) :
    m.step.2 = { m with
      pc := m.pc + i.width
      steps := countStep m.steps
      scene := (m.scene.perform i).1 } := by
  obtain ⟨hrun, hdecode⟩ := fetch?_eq_some_iff.mp hi
  rcases step_of_decode hrun hdecode with ⟨hhalt, -⟩ | ⟨hzero, -⟩ | ⟨-, hstep⟩
  · exact absurd hhalt hdefers.ne_halt
  · exact absurd hzero hdefers.not_dividesByZero
  · rw [hstep, Instruction.next_of_not_jumpsTo hdefers.not_jumpsTo]

/-- After a step the registers hold what the instruction computes, up to congruence. -/
theorem numbers_step_of_defers (hi : m.fetch? = some i) (hdefers : i.Defers) :
    Congruent m.step.2.scene.registers.numbers (i.compute m.scene.registers.numbers) := by
  rw [step_of_defers hi hdefers]
  intro r
  show (m.scene.perform i).1.registers.numbers r ≡ _ [ZMOD 2 ^ 32]
  unfold Instruction.compute
  cases hresult : i.result? m.scene.registers.numbers with
  | none =>
    rw [Scene.registers_perform_of_none hresult]
  | some result =>
    obtain ⟨dest, n⟩ := result
    rw [Scene.numbers_perform_of_some hresult]
    by_cases hr : dest = r
    · simpa only [if_pos hr] using bmod_modEq n
    · simp only [if_neg hr, Int.ModEq.refl]

/-! ### Any number of steps -/

/-- Stepping keeps the registers congruent to the numbers that the executed instructions compute. -/
theorem numbers_after_congruent (h : ∀ i ∈ m.executed k, i.Defers) :
    Congruent (m.after k).scene.registers.numbers
      (Instruction.computeAll (m.executed k) m.scene.registers.numbers) := by
  induction k with
  | zero => exact fun r => Int.ModEq.refl _
  | succ k ih =>
    show Congruent (m.after k).step.2.scene.registers.numbers _
    rw [executed_succ] at h ⊢
    cases hi : (m.after k).fetch? with
    | none =>
      -- Without an instruction the step leaves the registers alone.
      rw [hi, Option.toList_none, List.append_nil] at h
      rw [scene_step_of_not_fetch hi, Option.toList_none, List.append_nil]
      exact ih h
    | some i =>
      rw [hi, Option.toList_some, List.forall_mem_append] at h
      obtain ⟨hbefore, hlast⟩ := h
      have hdefers : i.Defers := hlast i (List.mem_singleton_self i)
      have hstep := numbers_step_of_defers hi hdefers
      have hrest := hdefers.compute_congr (ih hbefore)
      rw [Option.toList_some, Instruction.computeAll_append_singleton]
      exact fun r => (hstep r).trans (hrest r)

/-- As long as each step finds such an instruction, the program goes through its code from one
instruction to the next. -/
theorem straight_after (hrun : m.status = .running) (h : ∀ i ∈ m.executed k, i.Defers)
    (hlength : (m.executed k).length = k) :
    Bytecode.Spells m.code m.pc (Bytecode.codeOf (m.executed k)) ∧
      (m.after k).status = .running ∧
      (m.after k).pc = m.pc + Bytecode.widthOf (m.executed k) := by
  induction k with
  | zero => exact ⟨Bytecode.spells_nil, hrun, rfl⟩
  | succ k ih =>
    have hle := length_executed_le k m
    show _ ∧ (m.after k).step.2.status = _ ∧ (m.after k).step.2.pc = _
    rw [executed_succ] at h hlength ⊢
    cases hi : (m.after k).fetch? with
    | none =>
      rw [hi, Option.toList_none, List.append_nil] at hlength
      omega
    | some i =>
      rw [hi, Option.toList_some] at h hlength
      rw [List.length_append, List.length_singleton] at hlength
      obtain ⟨hbefore, hlast⟩ := List.forall_mem_append.mp h
      obtain ⟨hspells, hstatus, hpc⟩ := ih hbefore (by omega)
      have hdecode := (fetch?_eq_some_iff.mp hi).2
      rw [code_after, hpc] at hdecode
      rw [step_of_defers hi (hlast i (List.mem_singleton_self i)), Option.toList_some]
      refine ⟨?_, hstatus, ?_⟩
      · rw [Bytecode.codeOf_append, Bytecode.spells_append, Bytecode.length_codeOf,
          Bytecode.codeOf_cons, Bytecode.codeOf_nil, List.append_nil]
        exact ⟨hspells, Bytecode.decode_eq_ok_iff.mp hdecode⟩
      · show (m.after k).pc + i.width = _
        rw [hpc, Bytecode.widthOf_append, Bytecode.widthOf_cons, Bytecode.widthOf_nil,
          Nat.add_zero, Nat.add_assoc]

/-- **Wrap-around can be deferred.** Suppose that the next `k` steps of a running machine execute
nothing but `STO`, `INC`, `DEC`, `ADD`, `SUB`, `MUL`, `DRW` and `MOV`. Then each register holds what
these instructions compute in whole numbers of any size from the signed words at the beginning,
reduced once modulo 2^32 to a signed word. If all `k` steps find an instruction, these are the
instructions that the code has from the program counter on, and the machine is running behind them.
-/
theorem wrapping_can_be_deferred (hrun : m.status = .running)
    (h : ∀ i ∈ m.executed k, i.Defers) :
    (∀ r, (m.after k).scene.registers.numbers r =
      (Instruction.computeAll (m.executed k) m.scene.registers.numbers r).bmod (2 ^ 32)) ∧
    ((m.executed k).length = k →
      Bytecode.Spells m.code m.pc (Bytecode.codeOf (m.executed k)) ∧
        (m.after k).status = .running ∧
        (m.after k).pc = m.pc + Bytecode.widthOf (m.executed k)) := by
  constructor
  · intro r
    calc (m.after k).scene.registers.numbers r
        = ((m.after k).scene.registers.numbers r).bmod (2 ^ 32) :=
          (Registers.bmod_numbers _ r).symm
      _ = (Instruction.computeAll (m.executed k) m.scene.registers.numbers r).bmod (2 ^ 32) :=
          bmod_congr (numbers_after_congruent h r)
  · exact straight_after hrun h

/-- `STO B 65535`, then `MUL B B` twice. -/
def squareTwice : Machine := onePixel #[3, 1, 255, 255, 137, 1, 1, 137, 1, 1] 0

/-- The first square is too great for a word, and so is the second one. -/
theorem wrapping_can_be_deferred_of_squareTwice :
    squareTwice.status = .running ∧ (∀ i ∈ squareTwice.executed 3, i.Defers) ∧
      (squareTwice.after 3).scene.registers.numbers .b = (65535 ^ 4 : Int).bmod (2 ^ 32) ∧
      (squareTwice.after 3).pc = 10 := by
  have hrun : squareTwice.status = .running := rfl
  have hexecuted : squareTwice.executed 3 =
      [.arithmetic .store .b (.immediate 65535), .arithmetic .multiply .b (.register .b),
        .arithmetic .multiply .b (.register .b)] := by decide
  have hdefers : ∀ i ∈ squareTwice.executed 3, i.Defers := by
    rw [hexecuted]
    simp [Instruction.Defers]
  obtain ⟨hnumbers, hstraight⟩ := wrapping_can_be_deferred hrun hdefers
  obtain ⟨-, -, hpc⟩ := hstraight (congrArg List.length hexecuted)
  refine ⟨hrun, hdefers, ?_, ?_⟩
  · rw [hnumbers, hexecuted]
    decide
  · rw [hpc, hexecuted]
    rfl

end Machine

end TurtleVM
