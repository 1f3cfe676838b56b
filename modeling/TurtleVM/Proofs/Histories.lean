import TurtleVM.Proofs.BoundedRuns

/-! # What has happened to a machine

Whoever watches a machine, and however its steps are grouped into runs, it is the fresh machine
after some number of steps; at most a limit has stopped it since: `Reaches.exists_isAfter`. So a
history is told by the machines `m.after 0`, `m.after 1`, and so on, and by the instruction that
each of them is about to execute, which is `fetch?`.

What an instruction does to the turtle, to the canvas and to the count of steps is stated here once,
by the instruction that is fetched.
-/

namespace TurtleVM

/-! ### The turtle and the canvas under an instruction -/

/-- Neither the turtle's moves nor its pen can be trapped. -/
theorem Instruction.ne_of_trap? {i : Instruction} {rs : Registers} {trap : Trap}
    (h : i.trap? rs = some trap) : i ≠ .move ∧ i ≠ .draw := by
  constructor
  · intro hmove
    rw [hmove] at h
    cases h
  · intro hdraw
    rw [hdraw] at h
    cases h

namespace Scene

variable {i : Instruction} {s : Scene}

/-- The turtle turns and moves only with `MOV`, and lowers its pen only with `DRW`. -/
theorem turtle_perform_of_ne (hmove : i ≠ .move) (hdraw : i ≠ .draw) :
    (s.perform i).1.turtle = s.turtle := by
  unfold perform
  split
  · exact absurd rfl hdraw
  · exact absurd rfl hmove
  all_goals rfl

theorem canvas_perform_of_ne (hmove : i ≠ .move) : (s.perform i).1.canvas = s.canvas := by
  unfold perform
  split
  · rfl
  · exact absurd rfl hmove
  all_goals rfl

theorem registers_moveTurtle (s : Scene) : s.moveTurtle.1.registers = s.registers := by
  unfold moveTurtle
  dsimp only
  split <;> rfl

theorem turtle_perform_draw : (s.perform .draw).1.turtle = { s.turtle with drawing := true } := rfl

theorem turtle_perform_move :
    (s.perform .move).1.turtle = s.turtle.advance (s.registers.get .a) := by
  unfold perform moveTurtle
  dsimp only
  split <;> rfl

/-- With its pen up the turtle leaves the canvas alone. -/
theorem canvas_perform_move_of_up (h : s.turtle.drawing = false) :
    (s.perform .move).1.canvas = s.canvas := by
  simp [perform, moveTurtle, h]

/-- With its pen down the turtle plots the pixel it has moved to. -/
theorem canvas_perform_move_of_down (h : s.turtle.drawing = true) :
    (s.perform .move).1.canvas =
      (s.canvas.plot (s.perform .move).1.turtle.pixel.1 (s.perform .move).1.turtle.pixel.2).2 := by
  simp [perform, moveTurtle, h]

end Scene

namespace Machine

variable {m m₀ m' : Machine} {i : Instruction} {j k : Nat}

/-! ### The instruction of a step -/

/-- The instruction that the next step executes. Also an instruction that halts or is trapped is
executed, but there is none if the machine does not run or cannot decode any. -/
def fetch? (m : Machine) : Option Instruction :=
  if m.status = .running then (Bytecode.decode m.code m.pc).toOption else none

theorem fetch?_eq_some_iff :
    m.fetch? = some i ↔ m.status = .running ∧ Bytecode.decode m.code m.pc = .ok i := by
  unfold fetch?
  by_cases hrun : m.status = .running
  · rw [if_pos hrun, and_iff_right hrun]
    cases Bytecode.decode m.code m.pc <;> simp [Except.toOption]
  · simp [hrun]

theorem fetch?_of_decode_error {e : DecodeError}
    (he : Bytecode.decode m.code m.pc = .error e) : m.fetch? = none := by
  unfold fetch?
  rw [he]
  split <;> rfl

theorem fetch?_of_not_running (h : m.status ≠ .running) : m.fetch? = none := if_neg h

/-- What a step does, by the instruction that it fetches. -/
theorem step_cases (m : Machine) :
    (m.fetch? = none ∧ m.step.2.scene = m.scene ∧ m.step.2.steps = m.steps) ∨
    (∃ i, m.fetch? = some i ∧ m.step.2.steps = countStep m.steps ∧
      (m.step.2.scene = (m.scene.perform i).1 ∨
        m.step.2.scene = m.scene ∧ i.trap? m.scene.registers = some .divisionByZero)) := by
  by_cases hrun : m.status = .running
  · rw [step_eq]
    rcases stepWith_cases (fun (_ : Unit) _ => ()) () hrun with
      ⟨e, he, hstep⟩ | ⟨hi, hstep⟩ | ⟨i, hi, htrap, hstep⟩ | ⟨i, hi, -, -, hstep⟩
    all_goals rw [hstep]
    · exact .inl ⟨fetch?_of_decode_error he, rfl, rfl⟩
    · exact .inr ⟨.halt, fetch?_eq_some_iff.mpr ⟨hrun, hi⟩, rfl, .inl rfl⟩
    · exact .inr ⟨i, fetch?_eq_some_iff.mpr ⟨hrun, hi⟩, rfl, .inr ⟨rfl, htrap⟩⟩
    · exact .inr ⟨i, fetch?_eq_some_iff.mpr ⟨hrun, hi⟩, rfl, .inl rfl⟩
  · rw [step_of_not_running hrun]
    exact .inl ⟨fetch?_of_not_running hrun, rfl, rfl⟩

/-- A step is counted exactly if it executes an instruction. -/
theorem steps_step (m : Machine) :
    m.step.2.steps = if m.fetch?.isSome then countStep m.steps else m.steps := by
  rcases m.step_cases with ⟨hnone, -, hsteps⟩ | ⟨i, hi, hsteps, -⟩
  · rw [hsteps, hnone]
    rfl
  · rw [hsteps, hi]
    rfl

/-- Also an instruction that is trapped does to the turtle and the canvas what it always does, which
is nothing. -/
theorem scene_step_of_fetch (h : m.fetch? = some i) :
    m.step.2.scene.turtle = (m.scene.perform i).1.turtle ∧
      m.step.2.scene.canvas = (m.scene.perform i).1.canvas := by
  rcases m.step_cases with ⟨hnone, -, -⟩ | ⟨i', hi, -, hscene | ⟨hscene, htrap⟩⟩
  · rw [hnone] at h
    cases h
  · obtain rfl := Option.some.inj (h.symm.trans hi)
    rw [hscene]
    exact ⟨rfl, rfl⟩
  · obtain rfl := Option.some.inj (h.symm.trans hi)
    obtain ⟨hmove, hdraw⟩ := Instruction.ne_of_trap? htrap
    rw [hscene, Scene.turtle_perform_of_ne hmove hdraw, Scene.canvas_perform_of_ne hmove]
    exact ⟨rfl, rfl⟩

theorem scene_step_of_not_fetch (h : m.fetch? = none) : m.step.2.scene = m.scene := by
  rcases m.step_cases with ⟨-, hscene, -⟩ | ⟨i, hi, -⟩
  · exact hscene
  · rw [h] at hi
    cases hi

/-! ### The turtle and the canvas under a step -/

theorem turtle_step_of_draw (h : m.fetch? = some .draw) :
    m.step.2.scene.turtle = { m.scene.turtle with drawing := true } :=
  (scene_step_of_fetch h).1.trans Scene.turtle_perform_draw

theorem turtle_step_of_move (h : m.fetch? = some .move) :
    m.step.2.scene.turtle = m.scene.turtle.advance (m.scene.registers.get .a) :=
  (scene_step_of_fetch h).1.trans Scene.turtle_perform_move

theorem turtle_step_of_ne (hmove : m.fetch? ≠ some .move) (hdraw : m.fetch? ≠ some .draw) :
    m.step.2.scene.turtle = m.scene.turtle := by
  cases hfetch : m.fetch? with
  | none => rw [scene_step_of_not_fetch hfetch]
  | some i =>
    rw [hfetch] at hmove hdraw
    rw [(scene_step_of_fetch hfetch).1]
    exact Scene.turtle_perform_of_ne (fun h => hmove (congrArg some h))
      (fun h => hdraw (congrArg some h))

/-- The next step moves the turtle with its pen down. -/
def Inks (m : Machine) : Prop := m.fetch? = some .move ∧ m.scene.turtle.drawing = true

/-- A step that inks plots the pixel that the turtle has moved to. -/
theorem canvas_step_of_inks (h : m.Inks) :
    m.step.2.scene.canvas =
      (m.scene.canvas.plot m.step.2.scene.turtle.pixel.1 m.step.2.scene.turtle.pixel.2).2 := by
  obtain ⟨hmove, hdown⟩ := h
  obtain ⟨hturtle, hcanvas⟩ := scene_step_of_fetch hmove
  rw [hcanvas, hturtle]
  exact Scene.canvas_perform_move_of_down hdown

/-- No other step touches the canvas. -/
theorem canvas_step_of_not_inks (h : ¬ m.Inks) : m.step.2.scene.canvas = m.scene.canvas := by
  cases hfetch : m.fetch? with
  | none => rw [scene_step_of_not_fetch hfetch]
  | some i =>
    rw [(scene_step_of_fetch hfetch).2]
    by_cases hmove : i = .move
    · subst hmove
      have hup : m.scene.turtle.drawing = false :=
        Bool.eq_false_iff.mpr fun hdown => h ⟨hfetch, hdown⟩
      exact Scene.canvas_perform_move_of_up hup
    · exact Scene.canvas_perform_of_ne hmove

/-! ### Machines after steps and runs -/

/-- Steps may be taken in two parts. -/
theorem after_add (j k : Nat) (m : Machine) : m.after (j + k) = (m.after j).after k := by
  induction k with
  | zero => rfl
  | succ k ih =>
    show (m.after (j + k)).step.2 = ((m.after j).after k).step.2
    rw [ih]

/-- The machine is the one after `k` steps, or that one stopped by the limit of a run. -/
def IsAfter (m₀ : Machine) (k : Nat) (m : Machine) : Prop :=
  m = m₀.after k ∨ (m₀.after k).status = .running ∧ m = { m₀.after k with status := .faulted }

theorem IsAfter.scene (h : m₀.IsAfter k m) : m.scene = (m₀.after k).scene := by
  rcases h with rfl | ⟨-, rfl⟩ <;> rfl

theorem IsAfter.steps (h : m₀.IsAfter k m) : m.steps = (m₀.after k).steps := by
  rcases h with rfl | ⟨-, rfl⟩ <;> rfl

theorem IsAfter.trans (hk : m₀.IsAfter k m) (h : m.IsAfter j m') : ∃ n, m₀.IsAfter n m' := by
  rcases hk with rfl | ⟨hrun, rfl⟩
  · rw [IsAfter, ← after_add] at h
    exact ⟨k + j, h⟩
  · -- A machine that a limit has stopped stays as it is.
    have hstopped : ({ m₀.after k with status := .faulted } : Machine).status ≠ .running := nofun
    rw [IsAfter, after_of_not_running hstopped] at h
    rcases h with rfl | ⟨hrunning, -⟩
    · exact ⟨k, .inr ⟨hrun, rfl⟩⟩
    · exact absurd hrunning hstopped

theorem isAfter_step {σ : Type} (watch : σ → Event → σ) (state : σ) (m : Machine) :
    m.IsAfter 1 (m.stepWith watch state).2.1 :=
  .inl (stepWith_eq_step watch state m).2

theorem run_of_stops_after {limit : UInt64} (hlt : j < limit.toNat - m.steps.toNat)
    (h : (m.after j).Stops) : m.run limit = ((m.after j).stopOutcome, m.after (j + 1)) := by
  rw [← answer_runWith (fun (_ : Unit) _ => ()) (), answer_runWith_of_stops _ _ limit hlt h]

theorem run_of_not_stops {limit : UInt64} (hrun : m.status = .running)
    (h : ∀ j < limit.toNat - m.steps.toNat, ¬ (m.after j).Stops) :
    m.run limit =
      (.error ((m.after (limit.toNat - m.steps.toNat)).fault (.stepLimit limit)),
        { m.after (limit.toNat - m.steps.toNat) with status := .faulted }) := by
  rw [← answer_runWith (fun (_ : Unit) _ => ()) (), runWith,
    answer_runFor_of_not_stops _ _ limit hrun h]

/-- A run takes some steps and may then be stopped by its limit. -/
theorem exists_isAfter_run (limit : UInt64) (m : Machine) : ∃ k, m.IsAfter k (m.run limit).2 := by
  by_cases hrun : m.status = .running
  · by_cases hstop : ∃ j < limit.toNat - m.steps.toNat, (m.after j).Stops
    · obtain ⟨j, hj, hstops⟩ := hstop
      exact ⟨j + 1, .inl (by rw [run_of_stops_after hj hstops])⟩
    · have hgo : ∀ j < limit.toNat - m.steps.toNat, ¬ (m.after j).Stops :=
        fun j hj hstops => hstop ⟨j, hj, hstops⟩
      refine ⟨limit.toNat - m.steps.toNat, .inr ⟨running_after hrun hgo, ?_⟩⟩
      rw [run_of_not_stops hrun hgo]
  · exact ⟨0, .inl (by rw [run_of_not_running hrun]; rfl)⟩

/-- Wherever steps and runs lead, the machine is there after some number of steps. -/
theorem Reaches.exists_isAfter (h : m₀.Reaches m) : ∃ k, m₀.IsAfter k m := by
  induction h with
  | refl => exact ⟨0, .inl rfl⟩
  | step watch state _ ih =>
    obtain ⟨k, hk⟩ := ih
    exact hk.trans (isAfter_step watch state _)
  | @run σ watch state limit m _ ih =>
    obtain ⟨k, hk⟩ := ih
    obtain ⟨j, hj⟩ := exists_isAfter_run limit m
    have hfinal : (m.runWith watch state limit).2.1 = (m.run limit).2 :=
      congrArg Prod.snd (answer_runWith watch state limit m)
    rw [hfinal]
    exact hk.trans hj

end Machine

end TurtleVM
