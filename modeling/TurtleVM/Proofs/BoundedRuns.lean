import TurtleVM.Proofs.Stepping

/-! # A run is bounded stepping

A run checks the limit, takes a step, and starts over. `Ends` is that loop, told without a bound on
its rounds: `ends_iff` says that it ends for every machine, and with the answer of `run`. What keeps
it from going on for ever is the number of steps left, which each round lowers, because a machine
below the limit is also below the greatest count.

Seen from outside, the answer is decided by the first step that stops the machine, or by the limit
if no step within it does. Neither depends on who watches.
-/

namespace TurtleVM.Machine

variable {σ : Type} {m m' : Machine} {limit : UInt64} {left j n : Nat}

/-! ### Steps, whoever watches -/

/-- A watcher has no part in a step. -/
theorem stepWith_eq_step (watch : σ → Event → σ) (state : σ) (m : Machine) :
    (m.stepWith watch state).1 = m.step.1 ∧ (m.stepWith watch state).2.1 = m.step.2 := by
  rw [step_eq]
  by_cases hrun : m.status = .running
  · rcases stepWith_cases watch state hrun with
      ⟨e, he, hstep⟩ | ⟨hi, hstep⟩ | ⟨i, hi, htrap, hstep⟩ | ⟨i, hi, hne, htrap, hstep⟩
    · rw [hstep, stepWith_of_decode_error _ _ hrun he]
      exact ⟨rfl, rfl⟩
    · rw [hstep, stepWith_of_halt _ _ hrun hi]
      exact ⟨rfl, rfl⟩
    · rw [hstep, stepWith_of_trap _ _ hrun hi htrap]
      exact ⟨rfl, rfl⟩
    · rw [hstep, stepWith_of_perform _ _ hrun hi hne htrap]
      exact ⟨rfl, rfl⟩
  · rw [stepWith_of_not_running _ _ hrun, stepWith_of_not_running _ _ hrun]
    exact ⟨rfl, rfl⟩

/-- A step that goes on is counted. -/
theorem of_step_running (h : m.step.1 = .ok .running) :
    m.status = .running ∧ m.step.2.status = .running ∧ m.step.2.steps = countStep m.steps := by
  have hrun : m.status = .running := by
    by_cases hrun : m.status = .running
    · exact hrun
    · rw [step_of_not_running hrun] at h
      cases h
  have hstatus : m.step.2.status = .running :=
    status_of_stepWith_ok (fun (_ : Unit) _ => ()) () h
  refine ⟨hrun, hstatus, ?_⟩
  rw [step_eq] at h ⊢
  rcases stepWith_cases (fun (_ : Unit) _ => ()) () hrun with
    ⟨e, -, hstep⟩ | ⟨-, hstep⟩ | ⟨i, -, -, hstep⟩ | ⟨i, -, -, -, hstep⟩
  · rw [hstep] at h
    cases h
  · rw [hstep]
  · rw [hstep]
  · rw [hstep]

/-- Below the greatest count, counting adds one. -/
theorem toNat_countStep {steps : UInt64} (h : steps.toNat < 18446744073709551615) :
    (countStep steps).toNat = steps.toNat + 1 := by
  have hadd : (steps + 1).toNat = steps.toNat + 1 := by
    have hone : (1 : UInt64).toNat = 1 := rfl
    rw [UInt64.toNat_add, hone]
    omega
  have hne : steps + 1 ≠ 0 := by
    intro hzero
    rw [hzero] at hadd
    simp at hadd
  rw [countStep, if_neg hne, hadd]

/-- Counting stops at the greatest 64-bit word. -/
theorem toNat_countStep_eq_min (steps : UInt64) :
    (countStep steps).toNat = min (steps.toNat + 1) 18446744073709551615 := by
  have hlt := steps.toNat_lt
  by_cases hbelow : steps.toNat < 18446744073709551615
  · rw [toNat_countStep hbelow]
    omega
  · have hmax : steps = 18446744073709551615 := by
      apply UInt64.toNat_inj.mp
      show steps.toNat = 18446744073709551615
      omega
    rw [hmax]
    rfl

/-! ### Machines that stop -/

/-- The machine runs, but the next step halts or traps it. -/
def Stops (m : Machine) : Prop := m.status = .running ∧ m.step.1 ≠ .ok .running

/-- What a run reports of the step that stops a machine. -/
def stopOutcome (m : Machine) : Outcome :=
  match m.step.1 with
  | .ok _ => .ok ⟨m.step.2.pc, m.step.2.steps⟩
  | .error trap => .error (m.step.2.fault trap)

theorem step_of_not_stops (hrun : m.status = .running) (h : ¬ m.Stops) :
    m.step.1 = .ok .running :=
  Classical.byContradiction fun hne => h ⟨hrun, hne⟩

/-- A machine that stops is stopped. -/
theorem Stops.status_step (h : m.Stops) : m.step.2.status ≠ .running := by
  obtain ⟨hrun, hne⟩ := h
  rw [step_eq] at hne ⊢
  rcases stepWith_cases (fun (_ : Unit) _ => ()) () hrun with
    ⟨e, -, hstep⟩ | ⟨-, hstep⟩ | ⟨i, -, -, hstep⟩ | ⟨i, -, -, -, hstep⟩
  · rw [hstep]
    exact nofun
  · rw [hstep]
    exact nofun
  · rw [hstep]
    exact nofun
  · rw [hstep] at hne
    exact absurd rfl hne

/-- The first of some steps may be taken apart. -/
theorem after_succ (j : Nat) (m : Machine) : m.after (j + 1) = m.step.2.after j := by
  induction j with
  | zero => rfl
  | succ j ih =>
    show (m.after (j + 1)).step.2 = (m.step.2.after j).step.2
    rw [ih]

/-- A stopped machine is the same after any number of steps. -/
theorem after_of_not_running (h : m.status ≠ .running) (j : Nat) : m.after j = m := by
  induction j with
  | zero => rfl
  | succ j ih =>
    show (m.after j).step.2 = m
    rw [ih, step_of_not_running h]

/-- Once stopped, the machine is the same after all later steps. -/
theorem after_of_stops (h : (m.after j).Stops) (hlt : j < n) : m.after n = m.after (j + 1) := by
  induction n with
  | zero => exact absurd hlt (Nat.not_lt_zero j)
  | succ n ih =>
    rcases Nat.lt_or_eq_of_le (Nat.le_of_lt_succ hlt) with hlt | rfl
    · have hstopped : (m.after n).status ≠ .running := by
        rw [ih hlt]
        exact h.status_step
      show (m.after n).step.2 = m.after (j + 1)
      rw [step_of_not_running hstopped]
      exact ih hlt
    · rfl

/-- A machine that still runs has run all the time. -/
theorem running_before (hrun : (m.after n).status = .running) (hle : j ≤ n) :
    (m.after j).status = .running := by
  induction n with
  | zero =>
    obtain rfl := Nat.le_zero.mp hle
    exact hrun
  | succ n ih =>
    rcases Nat.lt_or_eq_of_le hle with hlt | rfl
    · refine ih ?_ (Nat.le_of_lt_succ hlt)
      by_cases hn : (m.after n).status = .running
      · exact hn
      · rw [show m.after (n + 1) = (m.after n).step.2 from rfl, step_of_not_running hn] at hrun
        exact hrun
    · exact hrun

/-- A machine that still runs has not stopped before. -/
theorem not_stops_of_running (hrun : (m.after n).status = .running) (hlt : j < n) :
    ¬ (m.after j).Stops := by
  intro hstops
  rw [after_of_stops hstops hlt] at hrun
  exact hstops.status_step hrun

/-- Steps that do not stop a machine leave it running. -/
theorem running_after (hrun : m.status = .running) (h : ∀ i < n, ¬ (m.after i).Stops) :
    (m.after n).status = .running := by
  induction n with
  | zero => exact hrun
  | succ n ih =>
    have hn : (m.after n).status = .running := ih fun i hi => h i (Nat.lt_succ_of_lt hi)
    exact (of_step_running (step_of_not_stops hn (h n (Nat.lt_succ_self n)))).2.1

/-- A machine that still runs has counted all its steps. -/
theorem toNat_steps_after (hrun : (m.after n).status = .running)
    (hle : m.steps.toNat + n ≤ 18446744073709551615) :
    (m.after n).steps.toNat = m.steps.toNat + n := by
  induction n with
  | zero => rfl
  | succ n ih =>
    have hbefore : (m.after n).status = .running := running_before hrun (Nat.le_succ n)
    have hstep : (m.after n).step.1 = .ok .running :=
      step_of_not_stops hbefore (not_stops_of_running hrun (Nat.lt_succ_self n))
    have hn := ih hbefore (by omega)
    show (m.after n).step.2.steps.toNat = m.steps.toNat + (n + 1)
    rw [(of_step_running hstep).2.2, toNat_countStep (by omega), hn, Nat.add_assoc]

/-! ### What a run answers -/

/-- How a run ended and the machine that it left, without what its watcher was told. -/
def answer (r : Outcome × Machine × σ) : Outcome × Machine := (r.1, r.2.1)

section Answers

variable (watch : σ → Event → σ) (state : σ)

theorem answer_runFor_zero (hrun : m.status = .running) :
    answer (m.runFor watch limit 0 state) =
      (.error (m.fault (.stepLimit limit)), { m with status := .faulted }) := by
  simp only [answer, runFor, hrun, if_true]
  rfl

theorem answer_runFor_of_stops (h : m.Stops) :
    answer (m.runFor watch limit (left + 1) state) = (m.stopOutcome, m.step.2) := by
  obtain ⟨hfst, hsnd⟩ := stepWith_eq_step watch state m
  rw [stopOutcome, ← hsnd, ← hfst]
  have hne : (m.stepWith watch state).1 ≠ .ok .running := hfst ▸ h.2
  rcases hstep : m.stepWith watch state with ⟨trap | status, m', state'⟩
  · simp only [answer, runFor, hstep]
  · rw [hstep] at hne
    cases status with
    | running => exact absurd rfl hne
    | halted => simp only [answer, runFor, hstep]
    | faulted => simp only [answer, runFor, hstep]

/-- A step that does not stop the machine is a round of the run. -/
theorem runFor_of_step (limit : UInt64) (left : Nat) (h : m.step.1 = .ok .running) :
    ∃ state', m.runFor watch limit (left + 1) state =
      m.step.2.runFor watch limit left state' := by
  obtain ⟨hfst, hsnd⟩ := stepWith_eq_step watch state m
  rw [h] at hfst
  rw [← hsnd]
  rcases hstep : m.stepWith watch state with ⟨result, m', state'⟩
  rw [hstep] at hfst
  obtain rfl : result = .ok .running := hfst
  exact ⟨state', by simp only [runFor, hstep]⟩

/-- Steps that do not stop the machine are rounds of the run. -/
theorem runFor_of_running (limit : UInt64) (left : Nat) (hrun : (m.after n).status = .running) :
    ∃ state', m.runFor watch limit (n + left) state =
      (m.after n).runFor watch limit left state' := by
  induction n generalizing m state with
  | zero => exact ⟨state, by rw [Nat.zero_add]; rfl⟩
  | succ n ih =>
    have hm : m.status = .running := running_before (j := 0) hrun (Nat.zero_le _)
    have hstep : m.step.1 = .ok .running :=
      step_of_not_stops hm (not_stops_of_running (j := 0) hrun (Nat.succ_pos n))
    obtain ⟨state₁, hround⟩ := runFor_of_step watch state limit (n + left) hstep
    rw [after_succ] at hrun ⊢
    obtain ⟨state₂, hrest⟩ := ih state₁ hrun
    exact ⟨state₂, by rw [Nat.add_right_comm, hround, hrest]⟩

/-- The step that stops the machine decides the run. -/
theorem answer_runFor_of_stops_after (hlt : j < left) (h : (m.after j).Stops) :
    answer (m.runFor watch limit left state) = ((m.after j).stopOutcome, m.after (j + 1)) := by
  obtain ⟨rest, rfl⟩ : ∃ rest, left = j + (rest + 1) := ⟨left - j - 1, by omega⟩
  obtain ⟨state', hrounds⟩ := runFor_of_running watch state limit (rest + 1) h.1
  rw [hrounds]
  exact answer_runFor_of_stops watch state' h

/-- Without such a step, the limit decides the run. -/
theorem answer_runFor_of_not_stops (limit : UInt64) (hrun : m.status = .running)
    (h : ∀ j < left, ¬ (m.after j).Stops) :
    answer (m.runFor watch limit left state) =
      (.error ((m.after left).fault (.stepLimit limit)),
        { m.after left with status := .faulted }) := by
  have hend : (m.after left).status = .running := running_after hrun h
  obtain ⟨state', hrounds⟩ := runFor_of_running watch state limit 0 hend
  rw [Nat.add_zero] at hrounds
  rw [hrounds]
  exact answer_runFor_zero watch state' hend

/-- A watcher has no part in a run. -/
theorem answer_runWith (limit : UInt64) (m : Machine) :
    answer (m.runWith watch state limit) = m.run limit := by
  show _ = answer (m.runWith (fun (_ : Unit) _ => ()) () limit)
  unfold runWith
  by_cases hrun : m.status = .running
  · by_cases hstop : ∃ j < limit.toNat - m.steps.toNat, (m.after j).Stops
    · obtain ⟨j, hj, hstops⟩ := hstop
      rw [answer_runFor_of_stops_after _ _ hj hstops, answer_runFor_of_stops_after _ _ hj hstops]
    · have hgo : ∀ j < limit.toNat - m.steps.toNat, ¬ (m.after j).Stops :=
        fun j hj hstops => hstop ⟨j, hj, hstops⟩
      rw [answer_runFor_of_not_stops _ _ _ hrun hgo, answer_runFor_of_not_stops _ _ _ hrun hgo]
  · rw [runFor_of_not_running _ _ _ _ hrun, runFor_of_not_running _ _ _ _ hrun]
    rfl

end Answers

/-! ### The loop -/

/-- A run of a machine ends with an outcome and leaves a machine. Each round first checks the limit,
then takes a step, and starts over unless the step has stopped the machine. -/
inductive Ends (limit : UInt64) : Machine → Outcome → Machine → Prop where
  | limit {m : Machine} (hrun : m.status = .running) (hlimit : limit ≤ m.steps) :
      Ends limit m (.error (m.fault (.stepLimit limit))) { m with status := .faulted }
  | stop {m m' : Machine} {status : Status} (hgo : ¬ (m.status = .running ∧ limit ≤ m.steps))
      (hstep : m.step = (.ok status, m')) (hstop : status ≠ .running) :
      Ends limit m (.ok ⟨m'.pc, m'.steps⟩) m'
  | trap {m m' : Machine} {trap : Trap} (hgo : ¬ (m.status = .running ∧ limit ≤ m.steps))
      (hstep : m.step = (.error trap, m')) : Ends limit m (.error (m'.fault trap)) m'
  | next {m m' final : Machine} {outcome : Outcome}
      (hgo : ¬ (m.status = .running ∧ limit ≤ m.steps)) (hstep : m.step = (.ok .running, m'))
      (hrest : Ends limit m' outcome final) : Ends limit m outcome final

theorem run_of_not_running (h : m.status ≠ .running) :
    m.run limit = (.error (m.fault .notRunning), m) := by
  rw [← answer_runWith (fun (_ : Unit) _ => ()) (), runWith, runFor_of_not_running _ _ _ _ h]
  rfl

theorem run_of_limit (hrun : m.status = .running) (hlimit : limit ≤ m.steps) :
    m.run limit = (.error (m.fault (.stepLimit limit)), { m with status := .faulted }) := by
  have hleft : limit.toNat - m.steps.toNat = 0 :=
    Nat.sub_eq_zero_of_le (UInt64.le_iff_toNat_le.mp hlimit)
  rw [← answer_runWith (fun (_ : Unit) _ => ()) (), runWith, hleft]
  exact answer_runFor_zero _ _ hrun

theorem run_of_stops (h : m.Stops) (hlt : m.steps < limit) :
    m.run limit = (m.stopOutcome, m.step.2) := by
  have hlt : m.steps.toNat < limit.toNat := UInt64.lt_iff_toNat_lt.mp hlt
  rw [← answer_runWith (fun (_ : Unit) _ => ()) (), runWith]
  exact answer_runFor_of_stops_after (j := 0) _ _ (by omega) h

/-- A step below the limit leaves one step less. -/
theorem left_of_step (h : m.step.1 = .ok .running) (hlt : m.steps < limit) :
    limit.toNat - m.steps.toNat = limit.toNat - m.step.2.steps.toNat + 1 := by
  have hlt : m.steps.toNat < limit.toNat := UInt64.lt_iff_toNat_lt.mp hlt
  have hmax : limit.toNat < 18446744073709551616 := limit.toNat_lt
  rw [(of_step_running h).2.2, toNat_countStep (by omega)]
  omega

theorem run_of_step (h : m.step.1 = .ok .running) (hlt : m.steps < limit) :
    m.run limit = m.step.2.run limit := by
  obtain ⟨state', hround⟩ := runFor_of_step (fun (_ : Unit) _ => ()) () limit
    (limit.toNat - m.step.2.steps.toNat) h
  rw [← left_of_step h hlt] at hround
  rw [← answer_runWith (fun (_ : Unit) _ => ()) () limit m, runWith, hround]
  rfl

/-- The loop ends, with the answer of the run. -/
theorem ends_run (limit : UInt64) (m : Machine) : Ends limit m (m.run limit).1 (m.run limit).2 := by
  -- Induction on the steps left; a round that starts over has used one of them.
  induction hleft : limit.toNat - m.steps.toNat using Nat.strongRecOn generalizing m with
  | ind left ih =>
    subst hleft
    by_cases hrun : m.status = .running
    · rcases UInt64.le_or_lt limit m.steps with hlimit | hlt
      · rw [run_of_limit hrun hlimit]
        exact .limit hrun hlimit
      · have hgo : ¬ (m.status = .running ∧ limit ≤ m.steps) :=
          fun h => UInt64.not_lt.mpr h.2 hlt
        by_cases hstops : m.Stops
        · rw [run_of_stops hstops hlt, stopOutcome]
          have hne := hstops.2
          rcases hstep : m.step with ⟨trap | status, m'⟩
          · exact .trap hgo hstep
          · rw [hstep] at hne
            exact .stop hgo hstep fun h => hne (congrArg Except.ok h)
        · have hstep := step_of_not_stops hrun hstops
          have hleft := left_of_step hstep hlt
          rw [run_of_step hstep hlt]
          exact .next hgo (Prod.ext hstep rfl) (ih _ (by omega) m.step.2 rfl)
    · have hgo : ¬ (m.status = .running ∧ limit ≤ m.steps) := fun h => hrun h.1
      rw [run_of_not_running hrun]
      exact .trap hgo (step_of_not_running hrun)

/-- The loop has no other answer. -/
theorem Ends.run_eq {outcome : Outcome} {final : Machine} (h : Ends limit m outcome final) :
    m.run limit = (outcome, final) := by
  induction h with
  | limit hrun hlimit => exact run_of_limit hrun hlimit
  | @stop m m' status hgo hstep hstop =>
    have hrun : m.status = .running := by
      by_cases hrun : m.status = .running
      · exact hrun
      · rw [step_of_not_running hrun] at hstep
        cases hstep
    have hlt : m.steps < limit := UInt64.not_le.mp fun hle => hgo ⟨hrun, hle⟩
    have hstops : m.Stops := ⟨hrun, by
      rw [hstep]
      exact fun h => hstop (Except.ok.inj h)⟩
    rw [run_of_stops hstops hlt, stopOutcome, hstep]
  | @trap m m' trap hgo hstep =>
    by_cases hrun : m.status = .running
    · have hlt : m.steps < limit := UInt64.not_le.mp fun hle => hgo ⟨hrun, hle⟩
      have hstops : m.Stops := ⟨hrun, by
        rw [hstep]
        exact nofun⟩
      rw [run_of_stops hstops hlt, stopOutcome, hstep]
    · rw [step_of_not_running hrun] at hstep
      obtain ⟨⟨⟩, rfl⟩ := Prod.mk.inj hstep
      exact run_of_not_running hrun
  | @next m m' final outcome hgo hstep hrest ih =>
    have hok : m.step.1 = .ok .running := by rw [hstep]
    have hlt : m.steps < limit :=
      UInt64.not_le.mp fun hle => hgo ⟨(of_step_running hok).1, hle⟩
    rw [run_of_step hok hlt, hstep]
    exact ih

/-- The loop ends for every machine, and just with the answer of the run. -/
theorem ends_iff {outcome : Outcome} {final : Machine} :
    Ends limit m outcome final ↔ m.run limit = (outcome, final) := by
  constructor
  · exact Ends.run_eq
  · intro h
    have hends := ends_run limit m
    rw [h] at hends
    exact hends

/-! ### The first stop decides -/

section FirstStop

variable (watch : σ → Event → σ) (state : σ)

/-- Below the limit there is one stop at most, and it decides the run. -/
theorem answer_runWith_of_stops (limit : UInt64) (hlt : j < limit.toNat - m.steps.toNat)
    (h : (m.after j).Stops) :
    answer (m.runWith watch state limit) = ((m.after j).stopOutcome, m.after (j + 1)) :=
  answer_runFor_of_stops_after watch state hlt h

/-- Steps within the limit that leave the machine running do not change the answer. -/
theorem answer_runWith_after (hrun : (m.after n).status = .running)
    (hle : m.steps.toNat + n ≤ limit.toNat) :
    answer ((m.after n).runWith watch state limit) = answer (m.runWith watch state limit) := by
  have hmax : limit.toNat < 18446744073709551616 := limit.toNat_lt
  have hsteps : (m.after n).steps.toNat = m.steps.toNat + n :=
    toNat_steps_after hrun (by omega)
  -- The rounds of the run of `m` are the steps, then the rounds of the run behind them.
  have hleft : limit.toNat - m.steps.toNat = n + (limit.toNat - (m.after n).steps.toNat) := by
    omega
  obtain ⟨state', hrounds⟩ := runFor_of_running watch state limit
    (limit.toNat - (m.after n).steps.toNat) hrun
  have hwhole : m.runWith watch state limit = (m.after n).runWith watch state' limit := by
    rw [runWith, hleft, hrounds, runWith]
  rw [hwhole, answer_runWith, answer_runWith]

/-- A machine that some steps have stopped has met its stop among them. -/
theorem exists_stops (hrun : m.status = .running) (hstopped : (m.after n).status ≠ .running) :
    ∃ j < n, (m.after j).Stops := by
  by_cases h : ∃ j < n, (m.after j).Stops
  · exact h
  · exact absurd (running_after hrun fun j hj hstops => h ⟨j, hj, hstops⟩) hstopped

end FirstStop

/-- **A run is bounded stepping.** The run of a running machine ends, whoever watches. If one of the
steps that the limit leaves stops the machine, it is the only one, and the run reports it and leaves
the machine as it is after that step. Otherwise the run reports the limit at the machine after all
these steps, and changes nothing of it but its status.

So steps before the run do not change its answer as long as they stay within the limit and leave
the machine running; steps that have stopped the machine have left it as the run would have, and a
run of it is refused. A higher limit changes no answer but that the limit was reached. -/
theorem run_is_bounded_stepping (watch : σ → Event → σ) (state : σ) (limit : UInt64)
    {m : Machine} (hrun : m.status = .running) :
    ∃ outcome final, answer (m.runWith watch state limit) = (outcome, final) ∧
      (∀ outcome' final', Ends limit m outcome' final' ↔ outcome' = outcome ∧ final' = final) ∧
      (∀ j < limit.toNat - m.steps.toNat, (m.after j).Stops →
        (∀ i < j, ¬ (m.after i).Stops) ∧ final = m.after (j + 1) ∧
        (∀ status, (m.after j).step.1 = .ok status →
          outcome = .ok ⟨(m.after (j + 1)).pc, (m.after (j + 1)).steps⟩) ∧
        (∀ trap, (m.after j).step.1 = .error trap →
          outcome =
            .error ⟨trap, (m.after (j + 1)).pc, (m.after (j + 1)).scene.registers⟩)) ∧
      ((∀ j < limit.toNat - m.steps.toNat, ¬ (m.after j).Stops) →
        outcome = .error ⟨.stepLimit limit, (m.after (limit.toNat - m.steps.toNat)).pc,
          (m.after (limit.toNat - m.steps.toNat)).scene.registers⟩ ∧
        final = { m.after (limit.toNat - m.steps.toNat) with status := .faulted }) ∧
      (∀ n, m.steps.toNat + n ≤ limit.toNat →
        ((m.after n).status = .running →
          answer ((m.after n).runWith watch state limit) = (outcome, final)) ∧
        ((m.after n).status ≠ .running → m.after n = final ∧
          answer ((m.after n).runWith watch state limit) =
            (.error ((m.after n).fault .notRunning), m.after n))) ∧
      (∀ limit', limit ≤ limit' → (∀ f, outcome = .error f → f.trap ≠ .stepLimit limit) →
        answer (m.runWith watch state limit') = (outcome, final)) := by
  have hrunEq : m.run limit = answer (m.runWith watch state limit) :=
    (answer_runWith watch state limit m).symm
  refine ⟨_, _, rfl, fun outcome' final' => ?_, fun j hj hstops => ?_, fun hgo => ?_,
    fun n hle => ⟨fun hn => ?_, fun hn => ?_⟩, fun limit' hle hother => ?_⟩
  · rw [ends_iff, hrunEq, Prod.ext_iff]
    exact and_congr eq_comm eq_comm
  · have hanswer := answer_runWith_of_stops watch state limit hj hstops
    obtain ⟨houtcome, hfinal⟩ := Prod.mk.inj hanswer
    refine ⟨fun i hi => not_stops_of_running hstops.1 hi, hfinal, fun status hok => ?_,
      fun trap herror => ?_⟩
    · rw [houtcome, stopOutcome, hok]
      rfl
    · rw [houtcome, stopOutcome, herror]
      rfl
  · exact Prod.mk.inj (answer_runFor_of_not_stops watch state limit hrun hgo)
  · exact answer_runWith_after watch state hn hle
  · obtain ⟨j, hj, hstops⟩ := exists_stops hrun hn
    have hlt : j < limit.toNat - m.steps.toNat := by omega
    have hfinal := (Prod.mk.inj (answer_runWith_of_stops watch state limit hlt hstops)).2
    have hafter : m.after n = m.after (j + 1) := after_of_stops hstops hj
    refine ⟨hafter.trans hfinal.symm, ?_⟩
    rw [answer_runWith, run_of_not_running hn]
  · have hleft : limit.toNat ≤ limit'.toNat := UInt64.le_iff_toNat_le.mp hle
    by_cases hstop : ∃ j < limit.toNat - m.steps.toNat, (m.after j).Stops
    · -- The step that stops the machine is also within the higher limit.
      obtain ⟨j, hj, hstops⟩ := hstop
      have hlow := answer_runWith_of_stops watch state limit hj hstops
      have hhigh := answer_runWith_of_stops watch state limit' (by omega) hstops
      rw [hhigh, ← hlow]
      rfl
    · have hgo : ∀ j < limit.toNat - m.steps.toNat, ¬ (m.after j).Stops :=
        fun j hj hstops => hstop ⟨j, hj, hstops⟩
      have hanswer := answer_runFor_of_not_stops watch state limit hrun hgo
      exact absurd rfl (hother _ (Prod.mk.inj hanswer).1)

/-- A machine at the start of a code, on a canvas of one pixel, that has counted some steps. -/
def onePixel (code : Bytes) (steps : UInt64) : Machine :=
  ⟨code, 0, .running, steps, ⟨.zero, .centred ⟨1, 1⟩, ⟨⟨1, 1⟩, #[0], by decide⟩⟩⟩

/-- The last step that the limit leaves halts: `DRW`, `HLT` with a limit of two steps. -/
theorem run_is_bounded_stepping_to_a_halt :
    Machine.load ⟨some ⟨1, 1⟩, #[1, 8]⟩ #[0] = .ok (onePixel #[1, 8] 0) ∧
      (onePixel #[1, 8] 0).status = .running ∧
      ∃ final, answer ((onePixel #[1, 8] 0).runWith record [] 2) = (.ok ⟨1, 2⟩, final) ∧
        final.status = .halted := by
  obtain ⟨outcome, final, hanswer, -, hstop, -⟩ :=
    run_is_bounded_stepping record [] 2 (m := onePixel #[1, 8] 0) rfl
  have hhalt : ((onePixel #[1, 8] 0).after 1).step.1 = .ok .halted := rfl
  have hstops : ((onePixel #[1, 8] 0).after 1).Stops := ⟨rfl, by
    rw [hhalt]
    exact nofun⟩
  obtain ⟨-, hfinal, houtcome, -⟩ := hstop 1 (by decide) hstops
  refine ⟨rfl, rfl, final, ?_, ?_⟩
  · rw [hanswer, houtcome _ hhalt]
    rfl
  · rw [hfinal]
    rfl

/-- Steps before a run can change its answer. One that halts the machine is within the limit, but
the run behind it is refused. And at the greatest count steps are no longer counted, so that a limit
of as many steps is reached one instruction later. -/
theorem steps_before_a_run_can_change_its_answer :
    ((onePixel #[8] 0).status = .running ∧ ((onePixel #[8] 0).after 1).steps ≤ 10 ∧
      ((onePixel #[8] 0).run 10).1 = .ok ⟨0, 1⟩ ∧
      (((onePixel #[8] 0).after 1).run 10).1 = .error ⟨.notRunning, 0, .zero⟩) ∧
    ((onePixel #[1, 8] greatestLimit).status = .running ∧
      ((onePixel #[1, 8] greatestLimit).after 1).status = .running ∧
      ((onePixel #[1, 8] greatestLimit).after 1).steps ≤ greatestLimit ∧
      ((onePixel #[1, 8] greatestLimit).run greatestLimit).1 =
        .error ⟨.stepLimit greatestLimit, 0, .zero⟩ ∧
      (((onePixel #[1, 8] greatestLimit).after 1).run greatestLimit).1 =
        .error ⟨.stepLimit greatestLimit, 1, .zero⟩) := by
  refine ⟨⟨rfl, ?_, rfl, rfl⟩, rfl, rfl, ?_, rfl, rfl⟩
  · show (1 : UInt64) ≤ 10
    decide
  · show greatestLimit ≤ greatestLimit
    decide

end TurtleVM.Machine
