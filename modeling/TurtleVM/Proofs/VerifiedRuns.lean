import TurtleVM.Proofs.Stepping
import TurtleVM.Proofs.Verification

/-! # Verified code runs safely

Verification reads code once from front to back; a run goes where its jumps take it. `OnBoundary`
ties the two: the program counter stands where the instructions of the program begin or end. A
step keeps this, because falling through leads to the next boundary and a jump of verified code
lands on one. So a run executes only instructions that the walk has seen, and the only faults
besides the step limit are divisions by zero and running off the end.
-/

namespace TurtleVM

open Bytecode

/-- The machine's code is a program, and its program counter is on a boundary of it. -/
structure OnBoundary (is : List Instruction) (m : Machine) : Prop where
  code : m.code.toList = codeOf is
  pc : ∃ k ≤ is.length, m.pc = widthOf (is.take k)

namespace OnBoundary

variable {is : List Instruction} {m : Machine}

/-- On a boundary there is an instruction of the program, or the program has ended. -/
theorem decode_cases (h : OnBoundary is m) :
    (∃ k i, is[k]? = some i ∧ m.pc = widthOf (is.take k) ∧ decode m.code m.pc = .ok i) ∨
    (m.pc = m.code.size ∧ decode m.code m.pc = .error (.outsideCode m.code.size)) := by
  obtain ⟨k, hk, hpc⟩ := h.pc
  rcases Nat.lt_or_eq_of_le hk with hlt | rfl
  · left
    have hi : is[k]? = some is[k] := List.getElem?_eq_getElem hlt
    exact ⟨k, is[k], hi, hpc, hpc ▸ decode_codeOf h.code hi⟩
  · right
    rw [List.take_length, ← size_of_toList_eq h.code] at hpc
    rw [hpc]
    exact ⟨rfl, decode_of_size_le (Nat.le_refl _)⟩

/-- What is decoded on a boundary is an item of the walk. -/
theorem mem_walk (h : OnBoundary is m) {i : Instruction} (hi : decode m.code m.pc = .ok i) :
    .ok ⟨m.pc, i⟩ ∈ walk m.code := by
  rcases h.decode_cases with ⟨k, j, hj, hpc, hdecode⟩ | ⟨-, hend⟩
  · rw [hdecode] at hi
    obtain rfl := Except.ok.inj hi
    rw [walk_of_toList_eq h.code]
    exact List.mem_map_of_mem (mem_locate_iff.mpr ⟨k, hj, by rw [Nat.zero_add, hpc]⟩)
  · rw [hend] at hi
    cases hi

theorem lands_next (hjumps : JumpsLand is) {k : Nat} {i : Instruction} (hi : is[k]? = some i)
    (rs : Registers) :
    ∃ k' ≤ is.length, i.next (widthOf (is.take k)) rs = widthOf (is.take k') := by
  have hk := (List.getElem?_eq_some_iff.mp hi).1
  unfold Instruction.next
  split
  · -- A jump of the program lands on an instruction or at the end.
    rename_i target htarget
    rcases hjumps i (List.mem_of_getElem? hi) target (Instruction.jumpTarget?_of_jump? htarget)
      with ⟨k', hk', htake⟩ | hend
    · exact ⟨k', Nat.le_of_lt hk', htake⟩
    · exact ⟨is.length, Nat.le_refl _, by rw [List.take_length, hend]⟩
  · exact ⟨k + 1, hk, (widthOf_take_succ hi).symm⟩

/-- A step stays on the boundaries of a program whose jumps land. -/
theorem stepWith {σ : Type} (watch : σ → Event → σ) (hjumps : JumpsLand is) (m : Machine)
    (state : σ) (h : OnBoundary is m) : OnBoundary is (m.stepWith watch state).2.1 := by
  by_cases hrun : m.status = .running
  · rcases Machine.stepWith_cases watch state hrun with
      ⟨e, -, hstep⟩ | ⟨-, hstep⟩ | ⟨i, -, -, hstep⟩ | ⟨i, hi, -, -, hstep⟩
    all_goals rw [hstep]
    -- Only an instruction that acts moves the program counter.
    · exact ⟨h.code, h.pc⟩
    · exact ⟨h.code, h.pc⟩
    · exact ⟨h.code, h.pc⟩
    · rcases h.decode_cases with ⟨k, j, hj, hpc, hdecode⟩ | ⟨-, hend⟩
      · rw [hdecode] at hi
        obtain rfl := Except.ok.inj hi
        refine ⟨h.code, ?_⟩
        show ∃ k' ≤ is.length, j.next m.pc m.scene.registers = widthOf (is.take k')
        rw [hpc]
        exact lands_next hjumps hj m.scene.registers
      · rw [hend] at hi
        cases hi
  · rw [Machine.stepWith_of_not_running watch state hrun]
    exact h

theorem fault (m : Machine) (h : OnBoundary is m) : OnBoundary is { m with status := .faulted } :=
  ⟨h.code, h.pc⟩

end OnBoundary

/-! ### Faults -/

/-- The traps that a running machine on a boundary can meet. -/
def BoundaryTrap (code : Bytes) (pc : Nat) (trap : Trap) : Prop :=
  trap = .divisionByZero ∨ trap = .decode (.outsideCode code.size) ∧ pc = code.size

variable {is : List Instruction} {σ : Type} {watch : σ → Event → σ}

/-- The machine after a trap still shows where the trap was met. -/
theorem OnBoundary.boundaryTrap_of_stepWith (watch : σ → Event → σ) (state : σ) {m : Machine}
    {trap : Trap} (h : OnBoundary is m) (hrun : m.status = .running)
    (htrap : (m.stepWith watch state).1 = .error trap) :
    BoundaryTrap m.code (m.stepWith watch state).2.1.pc trap := by
  rcases Machine.stepWith_cases watch state hrun with
    ⟨e, he, hstep⟩ | ⟨-, hstep⟩ | ⟨i, -, -, hstep⟩ | ⟨i, -, -, -, hstep⟩
  · rw [hstep] at htrap ⊢
    obtain rfl := Except.error.inj htrap
    rcases h.decode_cases with ⟨k, i, -, -, hdecode⟩ | ⟨hpc, hend⟩
    · rw [hdecode] at he
      cases he
    · rw [hend] at he
      obtain rfl := Except.error.inj he
      exact .inr ⟨rfl, hpc⟩
  · rw [hstep] at htrap
    cases htrap
  · rw [hstep] at htrap
    exact .inl (Except.error.inj htrap).symm
  · rw [hstep] at htrap
    cases htrap

/-- A run of verified code ends with the step limit or with a trap on a boundary. -/
theorem OnBoundary.boundaryTrap_of_runFor (hjumps : JumpsLand is) {limit : UInt64} {left : Nat}
    {m : Machine} {state : σ} {f : Fault} (h : OnBoundary is m) (hrun : m.status = .running)
    (hf : (m.runFor watch limit left state).1 = .error f) :
    f.trap = .stepLimit limit ∨ BoundaryTrap m.code f.pc f.trap := by
  induction left generalizing m state with
  | zero =>
    simp only [Machine.runFor, hrun, ↓reduceIte, Except.error.injEq] at hf
    subst hf
    exact .inl rfl
  | succ left ih =>
    have hnext := h.stepWith watch hjumps m state
    have hcode := m.code_stepWith watch state
    unfold Machine.runFor at hf
    split at hf
    · -- The machine goes on from the next boundary.
      rename_i m' state' heq
      have hstatus := Machine.status_of_stepWith_ok watch state (by rw [heq])
      rw [heq] at hnext hcode hstatus
      rw [← hcode]
      exact ih hnext hstatus hf
    · cases hf
    · rename_i trap m' state' heq
      obtain rfl := Except.error.inj hf
      have htrap := h.boundaryTrap_of_stepWith watch state hrun (by rw [heq])
      rw [heq] at htrap
      exact .inr htrap

/-- A step of verified code records only items of the walk. -/
theorem OnBoundary.mem_walk_of_stepWith {m : Machine} {events : List Event} {pc : Nat}
    {i : Instruction} {rs : Registers} (h : OnBoundary is m)
    (hi : .step pc i rs ∈ (m.stepWith Machine.record events).2.2) :
    .step pc i rs ∈ events ∨ .ok ⟨pc, i⟩ ∈ walk m.code := by
  rcases Machine.mem_record_of_step hi with hold | ⟨rfl, hdecode⟩
  · exact .inl hold
  · exact .inr (h.mem_walk hdecode)

/-- A run of verified code records only items of the walk. -/
theorem OnBoundary.mem_walk_of_runFor (hjumps : JumpsLand is) {limit : UInt64} {left : Nat}
    {m : Machine} {events : List Event} {pc : Nat} {i : Instruction} {rs : Registers}
    (h : OnBoundary is m)
    (hi : .step pc i rs ∈ (m.runFor Machine.record limit left events).2.2) :
    .step pc i rs ∈ events ∨ .ok ⟨pc, i⟩ ∈ walk m.code := by
  induction left generalizing m events with
  | zero =>
    rcases Machine.mem_record_iff.mp hi with hold | hfault
    · exact .inl hold
    · cases hfault
  | succ left ih =>
    have hnext := h.stepWith Machine.record hjumps m events
    have hcode := m.code_stepWith Machine.record events
    unfold Machine.runFor at hi
    split at hi
    · -- What the rest of the run records is an item of the same walk.
      rename_i m' events' heq
      rw [heq] at hnext hcode
      rcases ih hnext hi with hold | hmem
      · exact h.mem_walk_of_stepWith (by rwa [heq])
      · exact .inr (hcode ▸ hmem)
    · rename_i heq
      rcases Machine.mem_record_iff.mp hi with hold | hhalt
      · exact h.mem_walk_of_stepWith (by rwa [heq])
      · cases hhalt
    · rename_i heq
      rcases Machine.mem_record_iff.mp hi with hold | hfault
      · exact h.mem_walk_of_stepWith (by rwa [heq])
      · cases hfault

/-! ### The whole run -/

/-- A fresh machine with verified code is on a boundary, and so is every machine it reaches. -/
theorem OnBoundary.of_reaches (hjumps : JumpsLand is) {code : Bytes} (his : code.toList = codeOf is)
    {header : Option CanvasSize} {buffer : Bytes} {m₀ m : Machine}
    (hload : Machine.load ⟨header, code⟩ buffer = .ok m₀) (hm : m₀.Reaches m) :
    OnBoundary is m ∧ m.code = code := by
  obtain ⟨canvas, -, hm₀⟩ := Machine.load_eq_ok_iff.mp hload
  have hstart : OnBoundary is m₀ := by
    subst hm₀
    exact ⟨his, 0, Nat.zero_le _, rfl⟩
  constructor
  · exact hm.preserves (fun _ watch m state h => h.stepWith watch hjumps m state)
      OnBoundary.fault hstart
  · exact hm.preserves (P := fun m => m.code = code)
      (fun _ watch m state h => (m.code_stepWith watch state).trans h) (fun _ h => h) (hm₀ ▸ rfl)

/-- **Verified code runs safely.** Wherever steps and runs of any length lead a machine with
verified code, its program counter is at an item of the linear walk or at the end of the code, and
it executes only items of the walk. It can fault only by dividing by zero, by reaching the step
limit, or by fetching at the end of the code. A machine that has stopped refuses to go on. -/
theorem verified_code_runs_safely {code : Bytes} {n : Nat} (hverify : verify code = .ok n)
    {header : Option CanvasSize} {buffer : Bytes} {m₀ m : Machine}
    (hload : Machine.load ⟨header, code⟩ buffer = .ok m₀) (hm : m₀.Reaches m) :
    ((∃ i, .ok ⟨m.pc, i⟩ ∈ walk code) ∨ m.pc = code.size) ∧
    (∀ pc i rs, .step pc i rs ∈ (m.stepWith Machine.record []).2.2 →
      .ok ⟨pc, i⟩ ∈ walk code) ∧
    (∀ limit pc i rs, .step pc i rs ∈ (m.runWith Machine.record [] limit).2.2 →
      .ok ⟨pc, i⟩ ∈ walk code) ∧
    (∀ trap, m.step.1 = .error trap →
      trap = .divisionByZero ∨
      trap = .decode (.outsideCode code.size) ∧ m.step.2.pc = code.size ∨
      trap = .notRunning ∧ m.status ≠ .running) ∧
    (∀ limit f, (m.run limit).1 = .error f →
      f.trap = .divisionByZero ∨ f.trap = .stepLimit limit ∨
      f.trap = .decode (.outsideCode code.size) ∧ f.pc = code.size ∨
      f.trap = .notRunning ∧ m.status ≠ .running) := by
  obtain ⟨is, -, his, hjumps⟩ := verify_eq_ok_iff.mp hverify
  obtain ⟨hm, rfl⟩ := OnBoundary.of_reaches hjumps his hload hm
  refine ⟨?_, fun pc i rs hmem => ?_, fun limit pc i rs hmem => ?_, fun trap htrap => ?_,
    fun limit f hf => ?_⟩
  · rcases hm.decode_cases with ⟨k, i, -, -, hdecode⟩ | ⟨hend, -⟩
    · exact .inl ⟨i, hm.mem_walk hdecode⟩
    · exact .inr hend
  · rcases hm.mem_walk_of_stepWith hmem with hnil | hwalk
    · cases hnil
    · exact hwalk
  · rcases hm.mem_walk_of_runFor hjumps hmem with hnil | hwalk
    · cases hnil
    · exact hwalk
  · by_cases hrun : m.status = .running
    · rcases hm.boundaryTrap_of_stepWith (fun (_ : Unit) _ => ()) () hrun htrap with hzero | hend
      · exact .inl hzero
      · exact .inr (.inl hend)
    · rw [Machine.step_of_not_running hrun] at htrap
      exact .inr (.inr ⟨(Except.error.inj htrap).symm, hrun⟩)
  · by_cases hrun : m.status = .running
    · rcases hm.boundaryTrap_of_runFor hjumps hrun hf with hlimit | hzero | hend
      · exact .inr (.inl hlimit)
      · exact .inl hzero
      · exact .inr (.inr (.inl hend))
    · have hrefused : (m.run limit).1 = .error (m.fault .notRunning) := by
        simp only [Machine.run, Machine.runWith, Machine.runFor_of_not_running _ _ _ _ hrun]
      rw [hrefused] at hf
      obtain rfl := Except.error.inj hf
      exact .inr (.inr (.inr ⟨rfl, hrun⟩))

/-- A taken jump to the end of verified code: `STO B 1`, `JNZ B @0x0009`, `HLT`. After two steps
the machine stands behind the code, where it can only fault. -/
theorem verified_code_runs_safely_off_the_end :
    ∃ m₀ m, verify #[3, 1, 1, 0, 7, 1, 9, 0, 8] = .ok 3 ∧
      Machine.load ⟨some ⟨1, 1⟩, #[3, 1, 1, 0, 7, 1, 9, 0, 8]⟩ #[0] = .ok m₀ ∧
      m₀.Reaches m ∧ m.pc = 9 ∧
      ∀ trap, m.step.1 = .error trap →
        trap = .divisionByZero ∨ trap = .decode (.outsideCode 9) ∧ m.step.2.pc = 9 ∨
        trap = .notRunning ∧ m.status ≠ .running := by
  have hverify : verify #[3, 1, 1, 0, 7, 1, 9, 0, 8] = .ok 3 := by
    refine verify_eq_ok_iff.mpr ⟨[.arithmetic .store .b (.immediate 1), .jumpIfNonZero .b 9, .halt],
      rfl, rfl, fun i hi target htarget => ?_⟩
    -- The only jump goes to the end.
    have hend : ∀ j ∈ [Instruction.arithmetic .store .b (.immediate 1), .jumpIfNonZero .b 9, .halt],
        j.jumpTarget? = none ∨ j.jumpTarget? = some 9 := by decide
    rcases hend i hi with hnone | hsome
    · rw [hnone] at htarget
      cases htarget
    · rw [hsome] at htarget
      cases htarget
      exact .inr rfl
  refine ⟨_, _, hverify, rfl, (Machine.Reaches.refl.step (fun (_ : Unit) _ => ()) ()).step
    (fun (_ : Unit) _ => ()) (), rfl, ?_⟩
  exact (@verified_code_runs_safely _ _ hverify (some ⟨1, 1⟩) #[0] _ _ rfl
    ((Machine.Reaches.refl.step (fun (_ : Unit) _ => ()) ()).step
      (fun (_ : Unit) _ => ()) ())).2.2.2.1

end TurtleVM
