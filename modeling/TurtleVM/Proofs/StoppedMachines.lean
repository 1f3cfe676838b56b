import TurtleVM.Proofs.Codec
import TurtleVM.Proofs.Histories

/-! # Stopped machines

A machine stops where it stands. Whatever stops it, be it `HLT`, an instruction that is trapped or
cannot be decoded, or the limit of a run, the program counter, the registers, the turtle and the
canvas are those from before the last instruction. Only the status changes, and the count of steps
if there was an instruction to count.

From then on each call is refused, and changes nothing: `Reaches.eq_of_not_running`. So what a
stopped machine shows is where it stopped, whatever is asked of it in between.
-/

namespace TurtleVM

/-- `HLT` is its opcode and nothing else. -/
theorem Bytecode.decode_eq_halt_iff {code : Bytes} {pc : Nat} :
    decode code pc = .ok .halt ↔ code[pc]? = some Operation.halt.number := by
  rw [decode_eq_ok_iff]
  show Spells code pc [Operation.halt.number] ↔ _
  rw [spells_cons, Array.getElem?_toList]
  exact and_iff_left spells_nil

namespace Machine

variable {σ : Type} (watch : σ → Event → σ) (state : σ) {m m' : Machine} {limit : UInt64}

/-! ### Steps that stop a machine -/

/-- A step that is trapped changes the status, and counts if there is an instruction. -/
theorem stepWith_of_error (hrun : m.status = .running) {trap : Trap}
    (h : (m.stepWith watch state).1 = .error trap) :
    (∃ e, trap = .decode e ∧ Bytecode.decode m.code m.pc = .error e ∧
      (m.stepWith watch state).2.1 = { m with status := .faulted }) ∨
    (trap = .divisionByZero ∧ (∃ i, Bytecode.decode m.code m.pc = .ok i) ∧
      (m.stepWith watch state).2.1 =
        { m with status := .faulted, steps := countStep m.steps }) := by
  rcases stepWith_cases watch state hrun with
    ⟨e, he, hstep⟩ | ⟨-, hstep⟩ | ⟨i, hi, -, hstep⟩ | ⟨i, -, -, -, hstep⟩
  · rw [hstep] at h ⊢
    exact .inl ⟨e, (Except.error.inj h).symm, he, rfl⟩
  · rw [hstep] at h
    cases h
  · rw [hstep] at h ⊢
    exact .inr ⟨(Except.error.inj h).symm, ⟨i, hi⟩, rfl⟩
  · rw [hstep] at h
    cases h

/-- A step halts exactly if it decodes `HLT`. -/
theorem stepWith_halted_iff (hrun : m.status = .running) :
    (m.stepWith watch state).1 = .ok .halted ↔ Bytecode.decode m.code m.pc = .ok .halt := by
  constructor
  · intro h
    rcases stepWith_cases watch state hrun with
      ⟨e, -, hstep⟩ | ⟨hi, -⟩ | ⟨i, -, -, hstep⟩ | ⟨i, -, -, -, hstep⟩
    · rw [hstep] at h
      cases h
    · exact hi
    · rw [hstep] at h
      cases h
    · rw [hstep] at h
      cases h
  · intro hi
    rw [stepWith_of_halt watch state hrun hi]

/-! ### Runs that stop a machine -/

/-- The step that stops a machine with a fault leaves it where it stood. -/
theorem Stops.fault_eq (h : m.Stops) {f : Fault} (hf : m.stopOutcome = .error f) :
    f = m.fault f.trap ∧ (∀ limit, f.trap ≠ .stepLimit limit) ∧
      m.step.2 = { m with status := .faulted, steps := m.step.2.steps } := by
  obtain ⟨hrun, -⟩ := h
  unfold stopOutcome at hf
  cases hanswer : m.step.1 with
  | ok status =>
    rw [hanswer] at hf
    cases hf
  | error trap =>
    rw [hanswer] at hf
    obtain rfl := Except.error.inj hf
    rcases stepWith_of_error (fun (_ : Unit) _ => ()) () hrun hanswer with
      ⟨e, rfl, -, hstep⟩ | ⟨rfl, -, hstep⟩
    all_goals
      rw [← (stepWith_eq_step (fun (_ : Unit) _ => ()) () m).2, hstep]
      exact ⟨rfl, nofun, rfl⟩

/-- A run that faults has stopped the machine where it stood after some steps: the fault and the
machine show the program counter and the registers from before the instruction that failed. -/
theorem run_of_fault (hrun : m.status = .running) {f : Fault}
    (hf : (m.run limit).1 = .error f) :
    ∃ k, (m.after k).status = .running ∧ f = (m.after k).fault f.trap ∧
      (m.run limit).2 = { m.after k with status := .faulted, steps := (m.run limit).2.steps } ∧
      (∀ limit', f.trap = .stepLimit limit' → limit' = limit ∧
        k = limit.toNat - m.steps.toNat ∧ (m.run limit).2.steps = (m.after k).steps) := by
  by_cases hstop : ∃ j < limit.toNat - m.steps.toNat, (m.after j).Stops
  · obtain ⟨j, hj, hstops⟩ := hstop
    rw [run_of_stops_after hj hstops] at hf ⊢
    obtain ⟨hfault, hlimit, hmachine⟩ := hstops.fault_eq hf
    refine ⟨j, hstops.1, hfault, hmachine, ?_⟩
    intro limit' htrap
    exact absurd htrap (hlimit limit')
  · have hgo : ∀ j < limit.toNat - m.steps.toNat, ¬ (m.after j).Stops :=
      fun j hj hstops => hstop ⟨j, hj, hstops⟩
    rw [run_of_not_stops hrun hgo] at hf ⊢
    obtain rfl := Except.error.inj hf
    refine ⟨_, running_after hrun hgo, rfl, rfl, ?_⟩
    intro limit' htrap
    exact ⟨(Trap.stepLimit.inj htrap).symm, rfl, rfl⟩

/-! ### After the stop -/

/-- No call changes a machine that does not run. -/
theorem Reaches.eq_of_not_running (hm : m.Reaches m') (h : m.status ≠ .running) : m' = m := by
  induction hm with
  | refl => rfl
  | @step σ watch state m' _ ih =>
    subst ih
    rw [stepWith_of_not_running watch state h]
  | @run σ watch state limit m' _ ih =>
    subst ih
    rw [runWith, runFor_of_not_running _ _ _ _ h]

/-- **A machine stops where it stands, and stays there.** A step of a running machine that is
trapped changes nothing but the status, and the count of steps if it is a division by zero. It halts
exactly at the opcode of `HLT`, and then changes no more than that. A run that faults leaves the
machine as it stood after some steps, at the instruction that failed, and shows that in its fault;
if the limit stops it, not even the count of steps has changed. Whatever is called of a machine that
does not run, it is refused, and the machine stays as it is. -/
theorem machines_stop_where_they_stand (m : Machine) :
    (m.status = .running →
      (∀ trap, (m.stepWith watch state).1 = .error trap →
        (∃ e, trap = .decode e ∧ Bytecode.decode m.code m.pc = .error e ∧
          (m.stepWith watch state).2.1 = { m with status := .faulted }) ∨
        (trap = .divisionByZero ∧ (∃ i, Bytecode.decode m.code m.pc = .ok i) ∧
          (m.stepWith watch state).2.1 =
            { m with status := .faulted, steps := countStep m.steps })) ∧
      ((m.stepWith watch state).1 = .ok .halted ↔
        m.code[m.pc]? = some Operation.halt.number) ∧
      ((m.stepWith watch state).1 = .ok .halted →
        (m.stepWith watch state).2.1 =
          { m with status := .halted, steps := countStep m.steps }) ∧
      (∀ limit f, (m.runWith watch state limit).1 = .error f →
        ∃ k, (m.after k).status = .running ∧ f = (m.after k).fault f.trap ∧
          (m.runWith watch state limit).2.1 =
            { m.after k with
              status := .faulted, steps := (m.runWith watch state limit).2.1.steps } ∧
          (∀ limit', f.trap = .stepLimit limit' → limit' = limit ∧
            k = limit.toNat - m.steps.toNat ∧
            (m.runWith watch state limit).2.1.steps = (m.after k).steps))) ∧
    (countStep m.steps).toNat = min (m.steps.toNat + 1) 18446744073709551615 ∧
    (m.status ≠ .running → ∀ m', m.Reaches m' → m' = m ∧
      m'.stepWith watch state = (.error .notRunning, m', state) ∧
      ∀ limit, m'.runWith watch state limit =
        (.error (m'.fault .notRunning), m', watch state (.fault (m'.fault .notRunning)))) := by
  refine ⟨fun hrun => ⟨?_, ?_, ?_, ?_⟩, toNat_countStep_eq_min m.steps, ?_⟩
  · intro trap htrap
    exact stepWith_of_error watch state hrun htrap
  · rw [stepWith_halted_iff watch state hrun, Bytecode.decode_eq_halt_iff]
  · intro hhalted
    rw [stepWith_of_halt watch state hrun ((stepWith_halted_iff watch state hrun).mp hhalted)]
  · intro limit f hf
    have hanswer := answer_runWith watch state limit m
    have hfinal : (m.runWith watch state limit).2.1 = (m.run limit).2 := congrArg Prod.snd hanswer
    rw [hfinal]
    exact run_of_fault hrun ((congrArg Prod.fst hanswer).symm.trans hf)
  · intro hstopped m' hm'
    obtain rfl := hm'.eq_of_not_running hstopped
    refine ⟨rfl, stepWith_of_not_running watch state hstopped, ?_⟩
    intro limit
    rw [runWith, runFor_of_not_running _ _ _ _ hstopped]

/-- `DIV A 0`, in front of the eighth step. -/
def eighthStepDivides : Machine := onePixel #[15, 0, 0, 0] 7

/-- The division is counted, and no call gets the machine beyond it. -/
theorem machines_stop_where_they_stand_at_a_division :
    eighthStepDivides.status = .running ∧
      eighthStepDivides.step.1 = .error .divisionByZero ∧
      eighthStepDivides.step.2 = { eighthStepDivides with status := .faulted, steps := 8 } ∧
      ∀ m', eighthStepDivides.step.2.Reaches m' → m' = eighthStepDivides.step.2 ∧
        m'.step.1 = .error .notRunning ∧ (m'.run 9).1 = .error ⟨.notRunning, 0, .zero⟩ := by
  have hrun : eighthStepDivides.status = .running := rfl
  have hanswer : eighthStepDivides.step.1 = .error .divisionByZero := rfl
  obtain ⟨hstop, -, -⟩ :=
    machines_stop_where_they_stand (fun (_ : Unit) _ => ()) () eighthStepDivides
  rcases (hstop hrun).1 _ hanswer with ⟨e, he, -⟩ | ⟨-, -, hmachine⟩
  · cases he
  · refine ⟨hrun, hanswer, hmachine, ?_⟩
    intro m' hm'
    obtain ⟨-, -, hstay⟩ :=
      machines_stop_where_they_stand (fun (_ : Unit) _ => ()) () eighthStepDivides.step.2
    have hstopped : eighthStepDivides.step.2.status ≠ .running := nofun
    obtain ⟨rfl, hstep, hrefused⟩ := hstay hstopped m' hm'
    refine ⟨rfl, congrArg Prod.fst hstep, ?_⟩
    exact congrArg Prod.fst (hrefused 9)

end Machine

end TurtleVM
