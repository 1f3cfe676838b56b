import TurtleVM.Proofs.Histories

/-! # What the watcher of a run is told

A watcher is told of each instruction that is fetched, before it acts, and of each pixel that the
turtle moves to with its pen down. `told` says this for one step, by looking at the machine before
and after it. A step tells just that, so a run tells it step after step, and at last how it ended.

Telling is all that a watcher gets: the outcome and the machine of a run are those of the run that
nobody watches.
-/

namespace TurtleVM

/-! ### Events -/

/-- Whether the event tells of an instruction. -/
def Event.isStep : Event → Bool
  | step _ _ _ => true
  | _ => false

/-- What a watcher is told at the end of a run. -/
def closing : Outcome → Event
  | .ok h => .halt h
  | .error f => .fault f

namespace Machine

variable {σ : Type} {m : Machine} {limit : UInt64}

/-- The record of some events is the list of them. -/
theorem foldl_record (events told : List Event) : told.foldl record events = events ++ told := by
  induction told generalizing events with
  | nil => rw [List.foldl_nil, List.append_nil]
  | cons e told ih =>
    rw [List.foldl_cons, ih, record, List.append_assoc]
    rfl

/-! ### One step -/

/-- Where the next step leads the turtle, and whether that is on the canvas. -/
def plotted (m : Machine) : Plot :=
  let (x, y) := m.step.2.scene.turtle.pixel
  ⟨x, y, decide (m.scene.canvas.size.Contains x y)⟩

/-- What a watcher is told of the next step: the instruction with the registers before it, and
right behind it the pixel that a move with the pen down leads to. -/
def told (m : Machine) : List Event :=
  match m.fetch? with
  | none => []
  | some i =>
    .step m.pc i m.scene.registers ::
      if i = .move ∧ m.scene.turtle.drawing = true then [.plot m.plotted] else []

theorem told_of_not_fetch (h : m.fetch? = none) : m.told = [] := by
  simp only [told, h]

/-- An instruction that is no move is told alone. -/
theorem told_of_ne {i : Instruction} (h : m.fetch? = some i) (hne : i ≠ .move) :
    m.told = [.step m.pc i m.scene.registers] := by
  simp only [told, h, hne, false_and, if_false]

/-- One instruction is told of if there is one. -/
theorem countP_told (m : Machine) :
    m.told.countP Event.isStep = if m.fetch?.isSome then 1 else 0 := by
  unfold told
  cases m.fetch? with
  | none => rfl
  | some i =>
    dsimp only
    split <;> rfl

/-- A point is plotted by moves with the pen down only: the pixel of the turtle after the move. -/
theorem Scene.plot_perform (i : Instruction) (s : Scene) :
    (s.perform i).2 =
      if i = .move ∧ s.turtle.drawing = true then
        some ⟨(s.perform i).1.turtle.pixel.1, (s.perform i).1.turtle.pixel.2,
          decide (s.canvas.size.Contains (s.perform i).1.turtle.pixel.1
            (s.perform i).1.turtle.pixel.2)⟩
      else none := by
  by_cases hmove : i = .move
  · subst hmove
    cases hdown : s.turtle.drawing <;>
      simp [Scene.perform, Scene.moveTurtle, hdown, Canvas.plot_fst]
  · simp only [hmove, false_and, if_false]
    unfold Scene.perform
    split
    · rfl
    · exact absurd rfl hmove
    all_goals rfl

/-- What an instruction that acts tells is what is told of the step. -/
theorem performed_eq (watch : σ → Event → σ) (state : σ) (hrun : m.status = .running)
    {i : Instruction} (hi : Bytecode.decode m.code m.pc = .ok i) (hne : i ≠ .halt)
    (htrap : i.trap? m.scene.registers = none) :
    performed watch state m i = m.told.foldl watch state := by
  have hfetch : m.fetch? = some i := fetch?_eq_some_iff.mpr ⟨hrun, hi⟩
  have hscene : m.step.2.scene = (m.scene.perform i).1 := by
    rw [step_eq, stepWith_of_perform _ _ hrun hi hne htrap]
  have hplotted : (m.scene.perform i).2 =
      if i = .move ∧ m.scene.turtle.drawing = true then some m.plotted else none := by
    rw [Scene.plot_perform, plotted, hscene]
  unfold performed
  rw [hplotted]
  simp only [told, hfetch]
  by_cases hplot : i = .move ∧ m.scene.turtle.drawing = true
  · rw [if_pos hplot, if_pos hplot]
    rfl
  · rw [if_neg hplot, if_neg hplot]
    rfl

/-- A step tells what is told of it, and does what it does unwatched. -/
theorem stepWith_eq (watch : σ → Event → σ) (state : σ) (m : Machine) :
    m.stepWith watch state = (m.step.1, m.step.2, m.told.foldl watch state) := by
  obtain ⟨hresult, hmachine⟩ := stepWith_eq_step watch state m
  have htold : (m.stepWith watch state).2.2 = m.told.foldl watch state := by
    by_cases hrun : m.status = .running
    · rcases stepWith_cases watch state hrun with
        ⟨e, he, hstep⟩ | ⟨hi, hstep⟩ | ⟨i, hi, htrap, hstep⟩ | ⟨i, hi, hne, htrap, hstep⟩
      · rw [hstep, told_of_not_fetch (fetch?_of_decode_error he)]
        rfl
      · rw [hstep, told_of_ne (fetch?_eq_some_iff.mpr ⟨hrun, hi⟩) nofun]
        rfl
      · have hmove := (Instruction.ne_of_trap? htrap).1
        rw [hstep, told_of_ne (fetch?_eq_some_iff.mpr ⟨hrun, hi⟩) hmove]
        rfl
      · rw [hstep, performed_eq watch state hrun hi hne htrap]
    · rw [stepWith_of_not_running watch state hrun, told_of_not_fetch (fetch?_of_not_running hrun)]
      rfl
  rw [← hresult, ← hmachine, ← htold]

/-! ### Some steps -/

/-- What a watcher is told of the next `n` steps. -/
def toldFor (n : Nat) (m : Machine) : List Event :=
  (List.range n).flatMap fun j => (m.after j).told

theorem toldFor_succ (n : Nat) (m : Machine) :
    m.toldFor (n + 1) = m.toldFor n ++ (m.after n).told := by
  simp only [toldFor, List.range_succ, List.flatMap_append, List.flatMap_singleton]

/-- The first step may be told of first. -/
theorem toldFor_succ_eq_told_append (n : Nat) (m : Machine) :
    m.toldFor (n + 1) = m.told ++ m.step.2.toldFor n := by
  simp only [toldFor, List.range_succ_eq_map, List.flatMap_cons, List.flatMap_map, after_succ]
  rfl

/-- At most one instruction is told of each step. -/
theorem countP_toldFor_le (n : Nat) (m : Machine) : (m.toldFor n).countP Event.isStep ≤ n := by
  induction n with
  | zero => exact Nat.le_refl 0
  | succ n ih =>
    rw [toldFor_succ, List.countP_append, countP_told]
    split <;> omega

/-- As long as the count is not exhausted, just the instructions that are told of are counted. -/
theorem toNat_steps_after_eq {n : Nat} (h : m.steps.toNat + n ≤ 18446744073709551615) :
    (m.after n).steps.toNat = m.steps.toNat + (m.toldFor n).countP Event.isStep := by
  induction n with
  | zero => rfl
  | succ n ih =>
    have hn := ih (by omega)
    have hle := m.countP_toldFor_le n
    rw [toldFor_succ, List.countP_append, countP_told]
    show (m.after n).step.2.steps.toNat = _
    rw [steps_step]
    split
    · rw [toNat_countStep (by omega), hn, Nat.add_assoc]
    · exact hn

/-! ### Whole runs -/

/-- A run that may take `left` steps takes `n`: the machine runs before each of them, and behind
them no step is left or the machine has stopped. -/
structure Takes (m : Machine) (left n : Nat) : Prop where
  le : n ≤ left
  running : ∀ j < n, (m.after j).status = .running
  ended : n = left ∨ (m.after n).status ≠ .running

/-- A run takes just one number of steps. -/
theorem Takes.unique {left n n' : Nat} (h : m.Takes left n) (h' : m.Takes left n') : n = n' := by
  -- Where one run has ended the other cannot go on.
  have hle : ∀ {a b : Nat}, m.Takes left a → m.Takes left b → b ≤ a := by
    intro a b ha hb
    refine Nat.le_of_not_lt fun hlt => ?_
    rcases ha.ended with heq | hstopped
    · exact absurd hb.le (Nat.not_le_of_lt (heq ▸ hlt))
    · exact hstopped (hb.running a hlt)
  exact Nat.le_antisymm (hle h' h) (hle h h')

/-- A run takes steps until the limit or a stop, tells of each of them, and at last of its end. -/
theorem exists_runFor_eq (limit : UInt64) (left : Nat) (hrun : m.status = .running) :
    ∃ n, m.Takes left n ∧ ∃ outcome final, m.IsAfter n final ∧
        ∀ {σ : Type} (watch : σ → Event → σ) (state : σ),
          m.runFor watch limit left state =
            (outcome, final, (m.toldFor n ++ [closing outcome]).foldl watch state) := by
  induction left generalizing m with
  | zero =>
    refine ⟨0, ⟨Nat.le_refl 0, fun j hj => absurd hj (Nat.not_lt_zero j), .inl rfl⟩,
      .error (m.fault (.stepLimit limit)), { m with status := .faulted }, .inr ⟨hrun, rfl⟩, ?_⟩
    intro σ watch state
    simp only [runFor, if_pos hrun]
    rfl
  | succ left ih =>
    by_cases hstep : m.step.1 = .ok .running
    · -- The run goes on behind the step as a run of the steps that are left.
      obtain ⟨n, htakes, outcome, final, hfinal, hrest⟩ := ih (of_step_running hstep).2.1
      refine ⟨n + 1, ⟨Nat.succ_le_succ htakes.le, ?_, ?_⟩, outcome, final, ?_, ?_⟩
      · intro j hj
        cases j with
        | zero => exact hrun
        | succ j =>
          rw [after_succ]
          exact htakes.running j (Nat.lt_of_succ_lt_succ hj)
      · rw [after_succ]
        exact htakes.ended.imp (congrArg (· + 1)) id
      · rw [IsAfter, after_succ]
        exact hfinal
      · intro σ watch state
        simp only [runFor, stepWith_eq, hstep]
        rw [hrest, toldFor_succ_eq_told_append]
        simp only [List.append_assoc, List.foldl_append]
    · -- The step stops the machine, and the run reports it.
      have hstops : m.Stops := ⟨hrun, hstep⟩
      refine ⟨1, ⟨Nat.succ_pos left, ?_, .inr hstops.status_step⟩, m.stopOutcome, m.step.2,
        .inl rfl, ?_⟩
      · intro j hj
        obtain rfl := Nat.lt_one_iff.mp hj
        exact hrun
      · intro σ watch state
        rw [toldFor_succ_eq_told_append, List.foldl_append, List.foldl_append]
        unfold stopOutcome
        simp only [runFor, stepWith_eq]
        rcases hresult : m.step.1 with trap | status
        · rfl
        · rw [hresult] at hstep
          cases status with
          | running => exact absurd rfl hstep
          | halted => rfl
          | faulted => rfl

/-- Whoever watches, the outcome and the machine that is left are those of the unwatched run. -/
theorem exists_runWith_eq (limit : UInt64) (hrun : m.status = .running) :
    ∃ n, m.Takes (limit.toNat - m.steps.toNat) n ∧ m.IsAfter n (m.run limit).2 ∧
      ∀ {σ : Type} (watch : σ → Event → σ) (state : σ),
        m.runWith watch state limit = ((m.run limit).1, (m.run limit).2,
          (m.toldFor n ++ [closing (m.run limit).1]).foldl watch state) := by
  obtain ⟨n, htakes, outcome, final, hfinal, hall⟩ :=
    exists_runFor_eq limit (limit.toNat - m.steps.toNat) hrun
  have hrunEq : m.run limit = (outcome, final) := by
    rw [← answer_runWith (fun (_ : Unit) _ => ()) (), runWith, hall]
    rfl
  rw [hrunEq]
  exact ⟨n, htakes, hfinal, fun watch state => hall watch state⟩

/-- **A run tells what it does, and telling changes nothing.** A run of a running machine takes
steps until one stops it or the limit leaves none. Each of them is told in its turn: an instruction
that is fetched with its offset and the registers before it, and right behind a move with the pen
down the pixel it leads to. At last the outcome is told. The outcome and the machine that is left
are the same whoever watches, and as many instructions are told as are counted. -/
theorem watching_is_faithful (limit : UInt64) (hrun : m.status = .running) :
    ∃ n, m.Takes (limit.toNat - m.steps.toNat) n ∧ m.IsAfter n (m.run limit).2 ∧
      (m.run limit).2.steps.toNat = m.steps.toNat + (m.toldFor n).countP Event.isStep ∧
      ∀ {σ : Type} (watch : σ → Event → σ) (state : σ),
        m.runWith watch state limit = ((m.run limit).1, (m.run limit).2,
          (m.toldFor n ++ [closing (m.run limit).1]).foldl watch state) := by
  obtain ⟨n, htakes, hfinal, hall⟩ := exists_runWith_eq limit hrun
  refine ⟨n, htakes, hfinal, ?_, hall⟩
  -- The limit keeps the count from running out.
  have hle := htakes.le
  have hlimit : limit.toNat < 18446744073709551616 := limit.toNat_lt
  have hsteps : m.steps.toNat < 18446744073709551616 := m.steps.toNat_lt
  rw [hfinal.steps]
  exact toNat_steps_after_eq (by omega)

/-- A move off the canvas and a division by zero: `DRW`, `MOV`, `DIV A 0`. -/
def strayMove : Machine := onePixel #[1, 2, 15, 0, 0, 0] 0

/-- The move is told to be clipped, and the division is told before it is trapped. -/
theorem watching_is_faithful_to_a_trap :
    strayMove.status = .running ∧ (strayMove.run 9).2.steps.toNat = 3 ∧
      (strayMove.runWith record [] 9).2.2 =
        [.step 0 .draw .zero, .step 1 .move .zero, .plot ⟨1, 0, false⟩,
          .step 2 (.arithmetic .divide .a (.immediate 0)) .zero,
          .fault ⟨.divisionByZero, 2, .zero⟩] := by
  have hrun : strayMove.status = .running := rfl
  obtain ⟨n, htakes, -, hsteps, hall⟩ := watching_is_faithful 9 hrun
  -- The machine runs for three steps, and the third is trapped.
  have hthree : strayMove.Takes 9 3 :=
    ⟨by decide, by decide +kernel, .inr (by decide +kernel)⟩
  obtain rfl : n = 3 := htakes.unique hthree
  have hfault : (strayMove.run 9).1 = .error ⟨.divisionByZero, 2, .zero⟩ := rfl
  have hpixel : (strayMove.after 1).step.2.scene.turtle.pixel = (1, 0) := by decide +kernel
  have hplotted : (strayMove.after 1).plotted = ⟨1, 0, false⟩ := by
    rw [plotted, hpixel]
    rfl
  refine ⟨hrun, hsteps, ?_⟩
  rw [hall record [], foldl_record, hfault, ← hplotted]
  rfl

end Machine

end TurtleVM
