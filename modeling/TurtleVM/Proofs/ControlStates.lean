import TurtleVM.Proofs.Histories

/-! # Control states

Where a program goes on is decided by its control state: the program counter and the registers.
Turtle, canvas and the count of steps have no say in it, so two machines with one code and one
control state (`SameControl`) answer alike and stay so, step by step.

A machine that comes into a control state for the second time has therefore to repeat what it did
since the first time, over and over. It never stops by itself, and only a limit ends its runs:
`repeated_control_state_never_ends`.
-/

namespace TurtleVM

/-- What an instruction does to the registers depends on the registers alone. -/
theorem Scene.registers_perform_congr (i : Instruction) {s s' : Scene}
    (h : s.registers = s'.registers) : (s.perform i).1.registers = (s'.perform i).1.registers := by
  unfold perform
  split <;> simp only [penDown, setRegister, registers_moveTurtle, h]

namespace Machine

variable {m m' : Machine} {i j : Nat}

/-! ### Machines with the same control state -/

/-- Two machines that differ at most in their turtles, canvases and counts of steps. -/
structure SameControl (m m' : Machine) : Prop where
  code : m.code = m'.code
  pc : m.pc = m'.pc
  status : m.status = m'.status
  registers : m.scene.registers = m'.scene.registers

namespace SameControl

/-- They fetch the same instruction. -/
theorem fetch? (h : m.SameControl m') : m.fetch? = m'.fetch? := by
  unfold Machine.fetch?
  rw [h.status, h.code, h.pc]

/-- They step alike. -/
theorem step (h : m.SameControl m') :
    m.step.1 = m'.step.1 ∧ m.step.2.SameControl m'.step.2 := by
  by_cases hrun : m.status = .running
  · have hrun' : m'.status = .running := h.status ▸ hrun
    have hdecode : Bytecode.decode m.code m.pc = Bytecode.decode m'.code m'.pc := by
      rw [h.code, h.pc]
    rw [step_eq, step_eq]
    rcases stepWith_cases (fun (_ : Unit) _ => ()) () hrun with
      ⟨e, he, hstep⟩ | ⟨hi, hstep⟩ | ⟨i, hi, htrap, hstep⟩ | ⟨i, hi, hne, htrap, hstep⟩
    · rw [hstep, stepWith_of_decode_error _ _ hrun' (hdecode ▸ he)]
      exact ⟨rfl, h.code, h.pc, rfl, h.registers⟩
    · rw [hstep, stepWith_of_halt _ _ hrun' (hdecode ▸ hi)]
      exact ⟨rfl, h.code, h.pc, rfl, h.registers⟩
    · rw [hstep, stepWith_of_trap _ _ hrun' (hdecode ▸ hi) (h.registers ▸ htrap)]
      exact ⟨rfl, h.code, h.pc, rfl, h.registers⟩
    · rw [hstep, stepWith_of_perform _ _ hrun' (hdecode ▸ hi) hne (h.registers ▸ htrap)]
      refine ⟨rfl, h.code, ?_, h.status, Scene.registers_perform_congr i h.registers⟩
      show i.next m.pc m.scene.registers = i.next m'.pc m'.scene.registers
      rw [h.pc, h.registers]
  · have hrun' : m'.status ≠ .running := h.status ▸ hrun
    rw [step_of_not_running hrun, step_of_not_running hrun']
    exact ⟨rfl, h⟩

theorem after (h : m.SameControl m') (k : Nat) : (m.after k).SameControl (m'.after k) := by
  induction k with
  | zero => exact h
  | succ k ih => exact ih.step.2

end SameControl

/-! ### Repeated control states -/

theorem code_after (k : Nat) (m : Machine) : (m.after k).code = m.code := by
  induction k with
  | zero => rfl
  | succ k ih =>
    show (m.after k).step.2.code = m.code
    rw [step_eq, code_stepWith, ih]

/-- A machine that is in one control state after `i` and after `j` steps never stops. -/
theorem running_of_repeated (hij : i < j) (hrun : (m.after j).status = .running)
    (hsame : (m.after i).SameControl (m.after j)) (n : Nat) :
    (m.after n).status = .running := by
  -- Induction on the steps: those behind `j` repeat what was done `j - i` steps before.
  induction n using Nat.strongRecOn with
  | ind n ih =>
    rcases Nat.lt_or_ge n j with hlt | hge
    · exact running_before hrun (Nat.le_of_lt hlt)
    · obtain ⟨k, rfl⟩ : ∃ k, n = j + k := Nat.exists_eq_add_of_le hge
      have hearlier : (m.after (i + k)).status = .running := ih (i + k) (by omega)
      rw [after_add] at hearlier ⊢
      rw [← (hsame.after k).status]
      exact hearlier

/-- Only the limit ends the run of a machine that never stops. -/
theorem run_of_running (hrun : ∀ n, (m.after n).status = .running) (limit : UInt64) :
    m.run limit = (.error ((m.after (limit.toNat - m.steps.toNat)).fault (.stepLimit limit)),
      { m.after (limit.toNat - m.steps.toNat) with status := .faulted }) := by
  apply run_of_not_stops (hrun 0)
  intro j _
  exact not_stops_of_running (hrun (j + 1)) (Nat.lt_succ_self j)

/-- **A repeated control state means that the program never ends.** If a machine that was loaded is
running after `j` steps with the program counter and the registers it had after fewer steps, it is
running after every number of steps, and each run of it is ended by its limit. -/
theorem repeated_control_state_never_ends {image : Image} {buffer : Bytes}
    (hload : Machine.load image buffer = .ok m) (hij : i < j)
    (hrun : (m.after j).status = .running) (hpc : (m.after i).pc = (m.after j).pc)
    (hregisters : (m.after i).scene.registers = (m.after j).scene.registers) :
    (∀ n, (m.after n).status = .running) ∧
    ∀ {σ : Type} (watch : σ → Event → σ) (state : σ) (limit : UInt64),
      (m.runWith watch state limit).1 =
        .error ⟨.stepLimit limit, (m.after limit.toNat).pc,
          (m.after limit.toNat).scene.registers⟩ := by
  have hsame : (m.after i).SameControl (m.after j) := {
    code := (code_after i m).trans (code_after j m).symm
    pc := hpc
    status := (running_before hrun (Nat.le_of_lt hij)).trans hrun.symm
    registers := hregisters }
  have hnever := running_of_repeated hij hrun hsame
  refine ⟨hnever, ?_⟩
  intro σ watch state limit
  have hanswer : (m.runWith watch state limit).1 = (m.run limit).1 :=
    congrArg Prod.fst (answer_runWith watch state limit m)
  -- A loaded machine has all steps of the limit left.
  obtain ⟨canvas, -, rfl⟩ := load_eq_ok_iff.mp hload
  rw [hanswer, run_of_running hnever]
  rfl

/-- `DRW`, `STO B 1`, then `MOV` and `JNZ B` back to it. -/
def walkForEver : Machine := onePixel #[1, 3, 1, 1, 0, 2, 7, 1, 5, 0] 0

/-- After two and after four steps the machine is about to move. The turtle has moved in between,
but that does not get it out of the loop. -/
theorem repeated_control_state_never_ends_of_walkForEver :
    Machine.load ⟨some ⟨1, 1⟩, #[1, 3, 1, 1, 0, 2, 7, 1, 5, 0]⟩ #[0] = .ok walkForEver ∧
      (walkForEver.after 2).scene.turtle.x ≠ (walkForEver.after 4).scene.turtle.x ∧
      (walkForEver.after 1000000).status = .running ∧
      ∃ f, (walkForEver.runWith record [] greatestLimit).1 = .error f ∧
        f.trap = .stepLimit greatestLimit := by
  have hload : Machine.load ⟨some ⟨1, 1⟩, #[1, 3, 1, 1, 0, 2, 7, 1, 5, 0]⟩ #[0] =
      .ok walkForEver := rfl
  have hrun : (walkForEver.after 4).status = .running := rfl
  have hpc : (walkForEver.after 2).pc = (walkForEver.after 4).pc := rfl
  have hregisters :
      (walkForEver.after 2).scene.registers = (walkForEver.after 4).scene.registers := rfl
  obtain ⟨hnever, hlimit⟩ :=
    repeated_control_state_never_ends hload (by decide : 2 < 4) hrun hpc hregisters
  refine ⟨hload, by decide +kernel, hnever 1000000, ?_⟩
  exact ⟨_, hlimit record [] greatestLimit, rfl⟩

end Machine

end TurtleVM
