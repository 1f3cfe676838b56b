import Mathlib.Algebra.Group.Nat.Defs
import TurtleVM.Proofs.Histories

/-! # The instruction table in whole numbers

The table of instructions is written down here in whole numbers of any size: which number an
instruction computes (`Instruction.result?`), where it jumps (`Instruction.JumpsTo`) and when it
divides by zero. A register then holds the signed word that equals this number modulo 2^32. All
operands are read in the registers as they are before the instruction, so it does not matter
whether one of them is the destination.

Four structures say what the table means for a step: how it answers (`Instruction.Answers`), what it
writes (`Computes`), where it leads (`Leads`) and what it draws (`Paints`). What they leave alone is
part of them. `step_follows_instruction_table` is the main statement: each step is as they say.
-/

namespace TurtleVM

/-! ### The table -/

/-- The signed number in each register. -/
def Registers.numbers (rs : Registers) (r : Register) : Int := (rs.get r).toInt

/-- The number that an operand stands for. An immediate has no sign. -/
def Operand.number (numbers : Register → Int) : Operand → Int
  | immediate value => value.toNat
  | register r => numbers r

/-- Arithmetic on numbers of any size. Division rounds towards zero. -/
def Arithmetic.exact (f : Arithmetic) (left right : Int) : Int :=
  match f with
  | store => right
  | add => left + right
  | subtract => left - right
  | multiply => left * right
  | divide => left.tdiv right

/-- A comparison of numbers. -/
def Comparison.Relates (c : Comparison) (left right : Int) : Prop :=
  match c with
  | equal => left = right
  | notEqual => left ≠ right
  | greater => left > right
  | less => left < right

namespace Instruction

/-- The register that an instruction writes, and the exact number that it computes for it. -/
def result? (numbers : Register → Int) : Instruction → Option (Register × Int)
  | increment r => some (r, numbers r + 1)
  | incrementBy r amount => some (r, numbers r + amount.toNat)
  | decrement r => some (r, numbers r - 1)
  | arithmetic f r rhs => some (r, f.exact (numbers r) (rhs.number numbers))
  | multiplyInto dest src factor => some (dest, numbers src * factor.toNat)
  | draw | move | halt | jumpIfNonZero _ _ | jumpIf _ _ _ _ => none

/-- The instruction is a jump to the target, and its condition holds. -/
def JumpsTo (numbers : Register → Int) (target : UInt16) : Instruction → Prop
  | jumpIfNonZero r t => numbers r ≠ 0 ∧ t = target
  | jumpIf c r rhs t => c.Relates (numbers r) (rhs.number numbers) ∧ t = target
  | _ => False

/-- The instruction is a division, and its divisor is zero. -/
def DividesByZero (numbers : Register → Int) : Instruction → Prop
  | arithmetic .divide _ rhs => rhs.number numbers = 0
  | _ => False

end Instruction

/-! ### Words against numbers -/

theorem Operand.toInt_value (rs : Registers) (rhs : Operand) :
    (rhs.value rs).toInt = rhs.number rs.numbers := by
  cases rhs with
  | immediate value =>
    have hlt := value.toNat_lt
    exact Int32.toInt_ofNat_of_lt (by omega)
  | register r => rfl

theorem Operand.value_eq_zero_iff (rs : Registers) (rhs : Operand) :
    rhs.value rs = 0 ↔ rhs.number rs.numbers = 0 := by
  rw [← toInt_value, ← Int32.toInt_zero, Int32.toInt_inj]

/-- Arithmetic on words is exact arithmetic, reduced to a signed word. -/
theorem Arithmetic.toInt_eval (f : Arithmetic) (left right : Int32) :
    (f.eval left right).toInt = (f.exact left.toInt right.toInt).bmod (2 ^ 32) := by
  cases f with
  | store => exact (Int32.toInt_bmod right).symm
  | add => exact Int32.toInt_add left right
  | subtract => exact Int32.toInt_sub left right
  | multiply => exact Int32.toInt_mul left right
  | divide => exact Int32.toInt_div left right

example : (Arithmetic.divide.exact (-2147483648) (-1)).bmod (2 ^ 32) = -2147483648 := by decide

theorem Comparison.holds_iff (c : Comparison) (left right : Int32) :
    c.holds left right = true ↔ c.Relates left.toInt right.toInt := by
  cases c with
  | equal => simp [holds, Relates, Int32.toInt_inj]
  | notEqual => simp [holds, Relates, Int32.toInt_inj]
  | greater => simp [holds, Relates, Int32.lt_iff_toInt_lt]
  | less => simp [holds, Relates, Int32.lt_iff_toInt_lt]

namespace Instruction

variable {i : Instruction} {rs : Registers}

theorem trap?_eq_some_iff {trap : Trap} :
    i.trap? rs = some trap ↔ trap = .divisionByZero ∧ i.DividesByZero rs.numbers := by
  unfold trap? DividesByZero
  split
  · rename_i r rhs
    show _ ↔ trap = .divisionByZero ∧ rhs.number rs.numbers = 0
    rw [← Operand.value_eq_zero_iff]
    by_cases hzero : rhs.value rs = 0
    · simp [hzero, eq_comm]
    · simp [hzero]
  · simp

theorem trap?_eq_none_iff : i.trap? rs = none ↔ ¬ i.DividesByZero rs.numbers := by
  rw [Option.eq_none_iff_forall_ne_some]
  constructor
  · intro h hzero
    exact h .divisionByZero (trap?_eq_some_iff.mpr ⟨rfl, hzero⟩)
  · intro h trap htrap
    exact h (trap?_eq_some_iff.mp htrap).2

theorem jump?_eq_some_iff {target : UInt16} :
    i.jump? rs = some target ↔ i.JumpsTo rs.numbers target := by
  unfold jump? JumpsTo
  split
  · rename_i r t
    have hzero : rs.get r = 0 ↔ rs.numbers r = 0 := Operand.value_eq_zero_iff rs (.register r)
    simp [hzero]
  · rename_i c r rhs t
    show _ ↔ c.Relates (rs.get r).toInt (rhs.number rs.numbers) ∧ t = target
    rw [← Operand.toInt_value, ← Comparison.holds_iff]
    simp
  · simp

theorem ne_halt_of_dividesByZero {numbers : Register → Int} (h : i.DividesByZero numbers) :
    i ≠ .halt := by
  intro hi
  rw [hi] at h
  exact h

theorem not_jumpsTo_of_dividesByZero {numbers : Register → Int} (h : i.DividesByZero numbers)
    (target : UInt16) : ¬ i.JumpsTo numbers target := by
  cases i with
  | jumpIfNonZero | jumpIf => cases h
  | _ => exact id

/-- A jump that is not taken, and any other instruction, leads to the instruction behind it. -/
theorem next_of_not_jumpsTo (h : ∀ target, ¬ i.JumpsTo rs.numbers target) (pc : Nat) :
    i.next pc rs = pc + i.width := by
  have hnone : i.jump? rs = none := by
    apply Option.eq_none_iff_forall_ne_some.mpr
    intro target htarget
    exact h target (jump?_eq_some_iff.mp htarget)
  rw [next, hnone]

theorem next_of_jumpsTo {target : UInt16} (h : i.JumpsTo rs.numbers target) (pc : Nat) :
    i.next pc rs = target.toNat := by
  rw [next, jump?_eq_some_iff.mpr h]

end Instruction

/-! ### The registers after an instruction -/

theorem Registers.numbers_set (rs : Registers) (dest r : Register) (value : Int32) :
    (rs.set dest value).numbers r = if dest = r then value.toInt else rs.numbers r := by
  rw [numbers, get_set]
  split <;> rfl

namespace Scene

variable {i : Instruction} {s : Scene}

/-- An instruction without a result leaves the registers alone. -/
theorem registers_perform_of_none (h : i.result? s.registers.numbers = none) :
    (s.perform i).1.registers = s.registers := by
  cases i with
  | move => exact registers_moveTurtle s
  | draw | halt | jumpIfNonZero | jumpIf => rfl
  | increment | incrementBy | decrement | arithmetic | multiplyInto => cases h

/-- The destination holds the result modulo 2^32, and every other register what it held. -/
theorem numbers_perform_of_some {dest : Register} {n : Int}
    (h : i.result? s.registers.numbers = some (dest, n)) (r : Register) :
    (s.perform i).1.registers.numbers r =
      if dest = r then n.bmod (2 ^ 32) else s.registers.numbers r := by
  have hset {value : Int32} (hvalue : value.toInt = n.bmod (2 ^ 32)) :
      (s.registers.set dest value).numbers r =
        if dest = r then n.bmod (2 ^ 32) else s.registers.numbers r := by
    rw [Registers.numbers_set, hvalue]
  -- Immediates and the words that instructions add are far below 2^31.
  have himmediate (value : UInt16) : (Int32.ofNat value.toNat).toInt = value.toNat :=
    Operand.toInt_value s.registers (.immediate value)
  cases i with
  | draw | move | halt | jumpIfNonZero | jumpIf => cases h
  | increment r =>
    cases h
    apply hset
    exact Int32.toInt_add _ 1
  | incrementBy r amount =>
    cases h
    apply hset
    rw [Int32.toInt_add, himmediate]
    rfl
  | decrement r =>
    cases h
    apply hset
    exact Int32.toInt_sub _ 1
  | arithmetic f r rhs =>
    cases h
    apply hset
    rw [Arithmetic.toInt_eval, Operand.toInt_value]
    rfl
  | multiplyInto dest src factor =>
    cases h
    apply hset
    rw [Int32.toInt_mul, himmediate]
    rfl

end Scene

/-! ### What the table says of a step -/

namespace Instruction

/-- How a step that executes an instruction answers. -/
structure Answers (i : Instruction) (m : Machine) (answer : Except Trap Status)
    (m' : Machine) : Prop where
  /-- The only fault is a division by zero. -/
  fault_iff (trap : Trap) : answer = .error trap ↔
    trap = .divisionByZero ∧ i.DividesByZero m.scene.registers.numbers
  halt_iff : answer = .ok .halted ↔ i = .halt
  goes_on_iff : answer = .ok .running ↔
    i ≠ .halt ∧ ¬ i.DividesByZero m.scene.registers.numbers
  status (status : Status) : answer = .ok status → m'.status = status
  status_of_fault (trap : Trap) : answer = .error trap → m'.status = .faulted

/-- What a step that executes an instruction does to the registers. -/
structure Computes (i : Instruction) (m m' : Machine) : Prop where
  /-- The destination holds the exact result, reduced modulo 2^32 to a signed word. -/
  destination (dest : Register) (n : Int) : m'.status = .running →
    i.result? m.scene.registers.numbers = some (dest, n) →
      m'.scene.registers.numbers dest = n.bmod (2 ^ 32)
  others (r : Register) : (∀ n, i.result? m.scene.registers.numbers ≠ some (r, n)) →
    m'.scene.registers.get r = m.scene.registers.get r
  stopped : m'.status ≠ .running → m'.scene.registers = m.scene.registers

/-- Where a step that executes an instruction leads. -/
structure Leads (i : Instruction) (m m' : Machine) : Prop where
  jumps (target : UInt16) : i.JumpsTo m.scene.registers.numbers target →
    m'.pc = target.toNat
  falls_through : m'.status = .running →
    (∀ target, ¬ i.JumpsTo m.scene.registers.numbers target) → m'.pc = m.pc + i.width
  stopped : m'.status ≠ .running → m'.pc = m.pc

/-- What a step that executes an instruction does to the turtle and the canvas. -/
structure Paints (i : Instruction) (m m' : Machine) : Prop where
  /-- Only `MOV` changes the turtle's place. -/
  place : i ≠ .move →
    m'.scene.turtle.x = m.scene.turtle.x ∧ m'.scene.turtle.y = m.scene.turtle.y
  moves : i = .move →
    m'.scene.turtle = m.scene.turtle.advance (m.scene.registers.get .a)
  /-- Only `DRW` touches the pen, and puts it down. -/
  pen : m'.scene.turtle.drawing = true ↔ m.scene.turtle.drawing = true ∨ i = .draw
  /-- Only `MOV` with the pen down touches the canvas. -/
  canvas : ¬ (i = .move ∧ m.scene.turtle.drawing = true) → m'.scene.canvas = m.scene.canvas
  inks : i = .move ∧ m.scene.turtle.drawing = true → m'.scene.canvas =
    (m.scene.canvas.plot m'.scene.turtle.pixel.1 m'.scene.turtle.pixel.2).2

end Instruction

/-! ### Steps -/

namespace Machine

variable {m : Machine} {i : Instruction}

/-- A step halts, is trapped by a division by zero, or performs the instruction that it decodes. -/
theorem step_of_decode (hrun : m.status = .running) (hi : Bytecode.decode m.code m.pc = .ok i) :
    (i = .halt ∧
      m.step = (.ok .halted, { m with status := .halted, steps := countStep m.steps })) ∨
    (i.DividesByZero m.scene.registers.numbers ∧
      m.step = (.error .divisionByZero,
        { m with status := .faulted, steps := countStep m.steps })) ∨
    ((i ≠ .halt ∧ ¬ i.DividesByZero m.scene.registers.numbers) ∧
      m.step = (.ok .running,
        { m with
          pc := i.next m.pc m.scene.registers
          steps := countStep m.steps
          scene := (m.scene.perform i).1 })) := by
  by_cases hhalt : i = .halt
  · subst hhalt
    left
    rw [step_eq, stepWith_of_halt _ _ hrun hi]
    exact ⟨rfl, rfl⟩
  · by_cases hzero : i.DividesByZero m.scene.registers.numbers
    · right; left
      have htrap := Instruction.trap?_eq_some_iff.mpr ⟨rfl, hzero⟩
      rw [step_eq, stepWith_of_trap _ _ hrun hi htrap]
      exact ⟨hzero, rfl⟩
    · right; right
      have htrap := Instruction.trap?_eq_none_iff.mpr hzero
      rw [step_eq, stepWith_of_perform _ _ hrun hi hhalt htrap]
      exact ⟨⟨hhalt, hzero⟩, rfl⟩

theorem answers_step (hrun : m.status = .running)
    (hi : Bytecode.decode m.code m.pc = .ok i) : i.Answers m m.step.1 m.step.2 := by
  rcases step_of_decode hrun hi with ⟨hhalt, hstep⟩ | ⟨hzero, hstep⟩ | ⟨hgo, hstep⟩
  · rw [hstep, hhalt]
    constructor <;> simp [Instruction.DividesByZero]
  · have hne := Instruction.ne_halt_of_dividesByZero hzero
    rw [hstep]
    constructor <;> simp [hzero, hne, eq_comm]
  · rw [hstep]
    constructor <;> simp [hgo, hrun]

theorem computes_step (hrun : m.status = .running)
    (hi : Bytecode.decode m.code m.pc = .ok i) : i.Computes m m.step.2 := by
  rcases step_of_decode hrun hi with ⟨-, hstep⟩ | ⟨-, hstep⟩ | ⟨-, hstep⟩
  · rw [hstep]
    exact ⟨nofun, fun _ _ => rfl, fun _ => rfl⟩
  · rw [hstep]
    exact ⟨nofun, fun _ _ => rfl, fun _ => rfl⟩
  · rw [hstep]
    refine ⟨?_, ?_, fun hstopped => absurd hrun hstopped⟩
    · intro dest n _ hresult
      exact (Scene.numbers_perform_of_some hresult dest).trans (if_pos rfl)
    · intro r hother
      show (m.scene.perform i).1.registers.get r = m.scene.registers.get r
      cases hresult : i.result? m.scene.registers.numbers with
      | none => rw [Scene.registers_perform_of_none hresult]
      | some result =>
        obtain ⟨dest, n⟩ := result
        have hne : dest ≠ r := by
          intro heq
          exact hother n (heq ▸ hresult)
        -- A word is told by its number, so what holds of the numbers holds of the registers.
        apply Int32.toInt_inj.mp
        exact (Scene.numbers_perform_of_some hresult r).trans (if_neg hne)

theorem leads_step (hrun : m.status = .running)
    (hi : Bytecode.decode m.code m.pc = .ok i) : i.Leads m m.step.2 := by
  rcases step_of_decode hrun hi with ⟨hhalt, hstep⟩ | ⟨hzero, hstep⟩ | ⟨-, hstep⟩
  · rw [hstep, hhalt]
    exact ⟨fun _ => False.elim, nofun, fun _ => rfl⟩
  · rw [hstep]
    refine ⟨?_, nofun, fun _ => rfl⟩
    -- A division is no jump.
    intro target hjump
    exact absurd hjump (Instruction.not_jumpsTo_of_dividesByZero hzero target)
  · rw [hstep]
    refine ⟨?_, ?_, fun hstopped => absurd hrun hstopped⟩
    · intro target hjump
      exact Instruction.next_of_jumpsTo hjump m.pc
    · intro _ hnone
      exact Instruction.next_of_not_jumpsTo hnone m.pc

/-- The turtle and the canvas do not depend on how the step ends. -/
theorem paints_step (hrun : m.status = .running)
    (hi : Bytecode.decode m.code m.pc = .ok i) : i.Paints m m.step.2 := by
  have hfetch : m.fetch? = some i := fetch?_eq_some_iff.mpr ⟨hrun, hi⟩
  constructor
  case place =>
    intro hmove
    by_cases hdraw : i = .draw
    · rw [turtle_step_of_draw (hdraw ▸ hfetch)]
      exact ⟨rfl, rfl⟩
    · rw [turtle_step_of_ne (by simp [hfetch, hmove]) (by simp [hfetch, hdraw])]
      exact ⟨rfl, rfl⟩
  case moves =>
    intro hmove
    exact turtle_step_of_move (hmove ▸ hfetch)
  case pen =>
    by_cases hmove : i = .move
    · rw [turtle_step_of_move (hmove ▸ hfetch), Turtle.advance_drawing]
      simp [hmove]
    · by_cases hdraw : i = .draw
      · rw [turtle_step_of_draw (hdraw ▸ hfetch)]
        simp [hdraw]
      · rw [turtle_step_of_ne (by simp [hfetch, hmove]) (by simp [hfetch, hdraw])]
        simp [hdraw]
  case canvas =>
    intro hdry
    apply canvas_step_of_not_inks
    intro ⟨hmove, hdown⟩
    exact hdry ⟨Option.some.inj (hfetch.symm.trans hmove), hdown⟩
  case inks =>
    intro ⟨hmove, hdown⟩
    exact canvas_step_of_inks ⟨hmove ▸ hfetch, hdown⟩

/-- **A step does what the instruction table says.** Take a running machine whose instruction
decodes, whoever watches. The step answers, computes, leads on and paints as the table says of this
instruction; the code stays as it is, and the step is counted up to the greatest 64-bit word. -/
theorem step_follows_instruction_table {σ : Type} (watch : σ → Event → σ) (state : σ)
    (hrun : m.status = .running) (hi : Bytecode.decode m.code m.pc = .ok i) :
    i.Answers m (m.stepWith watch state).1 (m.stepWith watch state).2.1 ∧
      i.Computes m (m.stepWith watch state).2.1 ∧
      i.Leads m (m.stepWith watch state).2.1 ∧
      i.Paints m (m.stepWith watch state).2.1 ∧
      (m.stepWith watch state).2.1.code = m.code ∧
      (m.stepWith watch state).2.1.steps.toNat = min (m.steps.toNat + 1) 18446744073709551615 := by
  obtain ⟨hanswer, hmachine⟩ := stepWith_eq_step watch state m
  rw [hanswer, hmachine]
  have hfetch : m.fetch? = some i := fetch?_eq_some_iff.mpr ⟨hrun, hi⟩
  refine ⟨answers_step hrun hi, computes_step hrun hi, leads_step hrun hi, paints_step hrun hi,
    code_stepWith (fun (_ : Unit) _ => ()) () m, ?_⟩
  rw [steps_step, hfetch]
  exact toNat_countStep_eq_min m.steps

/-- `DIV B C` with the least word in `B` and -1 in `C`, on a machine that counts no further. -/
def leastByMinusOne : Machine :=
  { onePixel #[143, 1, 2] greatestLimit with
    scene := { (onePixel #[143, 1, 2] greatestLimit).scene with
      registers := (Registers.zero.set .b (-2147483648)).set .c (-1) } }

/-- The quotient 2^31 is no signed word, and is reduced to the least one again. -/
theorem step_follows_instruction_table_of_leastByMinusOne :
    leastByMinusOne.status = .running ∧
      Bytecode.decode leastByMinusOne.code leastByMinusOne.pc =
        .ok (.arithmetic .divide .b (.register .c)) ∧
      leastByMinusOne.step.1 = .ok .running ∧
      (leastByMinusOne.step.2.scene.registers.get .b).toInt = -2147483648 ∧
      leastByMinusOne.step.2.scene.registers.get .c = -1 ∧
      leastByMinusOne.step.2.pc = 3 ∧
      leastByMinusOne.step.2.steps.toNat = 18446744073709551615 := by
  have hrun : leastByMinusOne.status = .running := rfl
  have hi : Bytecode.decode leastByMinusOne.code leastByMinusOne.pc =
      .ok (.arithmetic .divide .b (.register .c)) := rfl
  obtain ⟨hanswers, hcomputes, hleads, -, -, hsteps⟩ :=
    step_follows_instruction_table (fun (_ : Unit) _ => ()) () hrun hi
  have hdivisor : leastByMinusOne.scene.registers.numbers .c ≠ 0 := by decide
  have hgo := hanswers.goes_on_iff.mpr ⟨nofun, hdivisor⟩
  have hstatus := hanswers.status .running hgo
  refine ⟨hrun, hi, hgo, hcomputes.destination .b _ hstatus rfl, hcomputes.others .c ?_,
    hleads.falls_through hstatus fun _ => id, hsteps⟩
  intro n h
  cases h

end Machine

end TurtleVM
