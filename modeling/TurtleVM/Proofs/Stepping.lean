import TurtleVM.Machine.Run

/-! # What one step and what a run can do

A step of a running machine does one of four things: it fails to decode, halts, is trapped by a
division by zero, or performs an instruction and goes on. `stepWith_cases` says this once with all
that the step returns, and everything that a run keeps is derived from it.

`Reaches` collects the machines that steps and runs lead to, whoever watches them, and `record` is
the watcher that writes down all events.
-/

namespace TurtleVM

/-! ### Traps and jumps of an instruction -/

/-- Division by zero is the only trap of an instruction. -/
theorem Instruction.eq_divisionByZero_of_trap? {i : Instruction} {rs : Registers} {trap : Trap}
    (h : i.trap? rs = some trap) : trap = .divisionByZero := by
  unfold trap? at h
  split at h
  · split at h <;> simp_all
  · cases h

theorem Instruction.jumpTarget?_of_jump? {i : Instruction} {rs : Registers} {target : UInt16}
    (h : i.jump? rs = some target) : i.jumpTarget? = some target := by
  unfold jump? at h
  split at h
  · split at h
    · exact h
    · cases h
  · split at h
    · exact h
    · cases h
  · cases h

namespace Machine

/-! ### Loading -/

/-- A machine can be loaded exactly if its canvas fits the buffer, and starts at offset 0. -/
theorem load_eq_ok_iff {image : Image} {buffer : Bytes} {m : Machine} :
    Machine.load image buffer = .ok m ↔
      ∃ canvas, Canvas.blank image.size buffer = .ok canvas ∧
        m = ⟨image.code, 0, .running, 0, ⟨.zero, .centred image.size, canvas⟩⟩ := by
  unfold Machine.load
  cases Canvas.blank image.size buffer with
  | error e => simp [bind, Except.bind]
  | ok canvas => simp [bind, Except.bind, pure, Except.pure, eq_comm]

/-! ### One step -/

section Step

variable {σ : Type} (watch : σ → Event → σ) (state : σ) {m : Machine}

theorem stepWith_of_decode_error (hrun : m.status = .running) {e : DecodeError}
    (he : Bytecode.decode m.code m.pc = .error e) :
    m.stepWith watch state = (.error (.decode e), { m with status := .faulted }, state) := by
  obtain ⟨code, pc, status, steps, scene⟩ := m
  subst hrun
  simp only [stepWith, he]

theorem stepWith_of_halt (hrun : m.status = .running)
    (hi : Bytecode.decode m.code m.pc = .ok .halt) :
    m.stepWith watch state = (.ok .halted,
      { m with status := .halted, steps := countStep m.steps },
      watch state (.step m.pc .halt m.scene.registers)) := by
  obtain ⟨code, pc, status, steps, scene⟩ := m
  subst hrun
  simp only [stepWith, hi, ↓reduceIte]

theorem stepWith_of_trap (hrun : m.status = .running) {i : Instruction} {trap : Trap}
    (hi : Bytecode.decode m.code m.pc = .ok i) (htrap : i.trap? m.scene.registers = some trap) :
    m.stepWith watch state = (.error trap,
      { m with status := .faulted, steps := countStep m.steps },
      watch state (.step m.pc i m.scene.registers)) := by
  obtain ⟨code, pc, status, steps, scene⟩ := m
  subst hrun
  have hne : i ≠ .halt := by
    intro h
    subst h
    cases htrap
  simp only [stepWith, hi, if_neg hne, htrap]

/-- What a watcher is told of an instruction that acts: the instruction, and the point that it
plots. -/
def performed (watch : σ → Event → σ) (state : σ) (m : Machine) (i : Instruction) : σ :=
  match (m.scene.perform i).2 with
  | some p => watch (watch state (.step m.pc i m.scene.registers)) (.plot p)
  | none => watch state (.step m.pc i m.scene.registers)

theorem stepWith_of_perform (hrun : m.status = .running) {i : Instruction}
    (hi : Bytecode.decode m.code m.pc = .ok i) (hne : i ≠ .halt)
    (htrap : i.trap? m.scene.registers = none) :
    m.stepWith watch state = (.ok .running,
      { m with
        pc := i.next m.pc m.scene.registers
        steps := countStep m.steps
        scene := (m.scene.perform i).1 },
      performed watch state m i) := by
  obtain ⟨code, pc, status, steps, scene⟩ := m
  subst hrun
  simp only [stepWith, hi, if_neg hne, htrap]
  rfl

/-- What one step of a running machine can do. -/
theorem stepWith_cases (hrun : m.status = .running) :
    (∃ e, Bytecode.decode m.code m.pc = .error e ∧
      m.stepWith watch state = (.error (.decode e), { m with status := .faulted }, state)) ∨
    (Bytecode.decode m.code m.pc = .ok .halt ∧
      m.stepWith watch state = (.ok .halted,
        { m with status := .halted, steps := countStep m.steps },
        watch state (.step m.pc .halt m.scene.registers))) ∨
    (∃ i, Bytecode.decode m.code m.pc = .ok i ∧
      i.trap? m.scene.registers = some .divisionByZero ∧
      m.stepWith watch state = (.error .divisionByZero,
        { m with status := .faulted, steps := countStep m.steps },
        watch state (.step m.pc i m.scene.registers))) ∨
    (∃ i, Bytecode.decode m.code m.pc = .ok i ∧ i ≠ .halt ∧
      i.trap? m.scene.registers = none ∧
      m.stepWith watch state = (.ok .running,
        { m with
          pc := i.next m.pc m.scene.registers
          steps := countStep m.steps
          scene := (m.scene.perform i).1 },
        performed watch state m i)) := by
  cases hi : Bytecode.decode m.code m.pc with
  | error e => exact .inl ⟨e, rfl, stepWith_of_decode_error watch state hrun hi⟩
  | ok i =>
    by_cases hhalt : i = .halt
    · subst hhalt
      exact .inr (.inl ⟨rfl, stepWith_of_halt watch state hrun hi⟩)
    · cases htrap : i.trap? m.scene.registers with
      | none =>
        exact .inr (.inr (.inr ⟨i, rfl, hhalt, htrap,
          stepWith_of_perform watch state hrun hi hhalt htrap⟩))
      | some trap =>
        obtain rfl := Instruction.eq_divisionByZero_of_trap? htrap
        exact .inr (.inr (.inl ⟨i, rfl, htrap, stepWith_of_trap watch state hrun hi htrap⟩))

/-- No step changes the code. -/
theorem code_stepWith (m : Machine) : (m.stepWith watch state).2.1.code = m.code := by
  by_cases hrun : m.status = .running
  · rcases stepWith_cases watch state hrun with
      ⟨e, -, hstep⟩ | ⟨-, hstep⟩ | ⟨i, -, -, hstep⟩ | ⟨i, -, -, -, hstep⟩ <;> rw [hstep]
  · rw [stepWith_of_not_running watch state hrun]

/-- The status that a step reports is the status of the machine after it. -/
theorem status_of_stepWith_ok {status : Status} (h : (m.stepWith watch state).1 = .ok status) :
    (m.stepWith watch state).2.1.status = status := by
  by_cases hrun : m.status = .running
  · rcases stepWith_cases watch state hrun with
      ⟨e, -, hstep⟩ | ⟨-, hstep⟩ | ⟨i, -, -, hstep⟩ | ⟨i, -, -, -, hstep⟩
    · rw [hstep] at h
      cases h
    · rw [hstep] at h ⊢
      exact Except.ok.inj h
    · rw [hstep] at h
      cases h
    · rw [hstep] at h ⊢
      exact hrun.trans (Except.ok.inj h)
  · rw [stepWith_of_not_running watch state hrun] at h
    cases h

end Step

/-- A plain step is a step that nobody watches. -/
theorem step_eq (m : Machine) :
    m.step = ((m.stepWith (fun _ _ => ()) ()).1, (m.stepWith (fun _ _ => ()) ()).2.1) := rfl

theorem step_of_not_running {m : Machine} (h : m.status ≠ .running) :
    m.step = (.error .notRunning, m) := by
  rw [step_eq, stepWith_of_not_running _ _ h]

/-- The machine after a number of steps. -/
def after : Nat → Machine → Machine
  | 0, m => m
  | k + 1, m => (m.after k).step.2

/-! ### Runs -/

/-- A run of a machine that does not run is refused. -/
theorem runFor_of_not_running {σ : Type} (watch : σ → Event → σ) (limit : UInt64) (left : Nat)
    (state : σ) {m : Machine} (h : m.status ≠ .running) :
    m.runFor watch limit left state =
      (.error (m.fault .notRunning), m, watch state (.fault (m.fault .notRunning))) := by
  cases left with
  | zero => simp only [runFor, if_neg h]
  | succ left => simp only [runFor, stepWith_of_not_running watch state h]

/-- What every step keeps, and a fault as well, is kept by a run. -/
theorem runFor_preserves {σ : Type} {watch : σ → Event → σ} {P : Machine → Prop}
    (hstep : ∀ m state, P m → P (m.stepWith watch state).2.1)
    (hfault : ∀ m, P m → P { m with status := .faulted }) (limit : UInt64) (left : Nat)
    (state : σ) {m : Machine} (h : P m) : P (m.runFor watch limit left state).2.1 := by
  induction left generalizing m state with
  | zero =>
    simp only [runFor]
    split
    · exact hfault m h
    · exact h
  | succ left ih =>
    have hnext := hstep m state h
    unfold runFor
    split
    · rename_i m' state' heq
      rw [heq] at hnext
      exact ih state' hnext
    · rename_i status m' state' _ heq
      rw [heq] at hnext
      exact hnext
    · rename_i trap m' state' heq
      rw [heq] at hnext
      exact hnext

/-! ### Reachable machines -/

/-- The machines that steps and runs lead to, whoever watches. -/
inductive Reaches (m₀ : Machine) : Machine → Prop where
  | refl : Reaches m₀ m₀
  | step {σ : Type} (watch : σ → Event → σ) (state : σ) {m : Machine} :
      Reaches m₀ m → Reaches m₀ (m.stepWith watch state).2.1
  | run {σ : Type} (watch : σ → Event → σ) (state : σ) (limit : UInt64) {m : Machine} :
      Reaches m₀ m → Reaches m₀ (m.runWith watch state limit).2.1

/-- What every step keeps, and a fault as well, holds of every reachable machine. -/
theorem Reaches.preserves {P : Machine → Prop}
    (hstep : ∀ (σ : Type) (watch : σ → Event → σ) m state, P m →
      P (m.stepWith watch state).2.1)
    (hfault : ∀ m, P m → P { m with status := .faulted }) {m₀ m : Machine} (h₀ : P m₀)
    (h : Reaches m₀ m) : P m := by
  induction h with
  | refl => exact h₀
  | step watch state _ ih => exact hstep _ watch _ state ih
  | run watch state limit _ ih =>
    exact runFor_preserves (hstep _ watch) hfault limit _ state ih

/-! ### Records -/

/-- The watcher that writes down all events. -/
def record (events : List Event) (e : Event) : List Event := events ++ [e]

theorem mem_record_iff {events : List Event} {e last : Event} :
    e ∈ record events last ↔ e ∈ events ∨ e = last := by
  simp [record]

/-- A step adds to a record at most the instruction at the program counter and a plot. -/
theorem mem_record_of_step {m : Machine} {events : List Event} {pc : Nat} {i : Instruction}
    {rs : Registers} (h : .step pc i rs ∈ (m.stepWith record events).2.2) :
    .step pc i rs ∈ events ∨ pc = m.pc ∧ Bytecode.decode m.code m.pc = .ok i := by
  -- Whatever becomes of an instruction, it is recorded as it was decoded.
  have hrecorded {j : Instruction} (hdecode : Bytecode.decode m.code m.pc = .ok j)
      (hj : .step pc i rs ∈ record events (.step m.pc j m.scene.registers)) :
      .step pc i rs ∈ events ∨ pc = m.pc ∧ Bytecode.decode m.code m.pc = .ok i := by
    rcases mem_record_iff.mp hj with hold | hnew
    · exact .inl hold
    · obtain ⟨rfl, rfl, -⟩ := Event.step.inj hnew
      exact .inr ⟨rfl, hdecode⟩
  by_cases hrun : m.status = .running
  · rcases stepWith_cases record events hrun with
      ⟨e, -, hstep⟩ | ⟨hdecode, hstep⟩ | ⟨j, hdecode, -, hstep⟩ | ⟨j, hdecode, -, -, hstep⟩
    · rw [hstep] at h
      exact .inl h
    · rw [hstep] at h
      exact hrecorded hdecode h
    · rw [hstep] at h
      exact hrecorded hdecode h
    · rw [hstep] at h
      simp only [performed] at h
      split at h
      · -- The plot is recorded behind its instruction.
        rcases mem_record_iff.mp h with hj | hplot
        · exact hrecorded hdecode hj
        · cases hplot
      · exact hrecorded hdecode h
  · rw [stepWith_of_not_running record events hrun] at h
    exact .inl h

end Machine

end TurtleVM
