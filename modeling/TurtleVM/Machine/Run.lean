import TurtleVM.Machine.Step

/-! # Runs

A run steps a machine until it halts, is trapped, or has executed as many instructions as it may.
The limit counts all steps of the machine, those before the run included, so a run can take at most
the steps that are left. An instruction that would exceed the limit is not started.
-/

namespace TurtleVM

/-- The limit of a run that sets none. -/
def standardLimit : UInt64 := 10000000

/-- The greatest limit. No program reaches it. -/
def greatestLimit : UInt64 := 18446744073709551615

namespace Machine

/-- The fault of a machine that is stopped by a trap. -/
def fault (trap : Trap) (m : Machine) : Fault := ⟨trap, m.pc, m.scene.registers⟩

/-- Runs a machine for at most `left` more steps under the eyes of a watcher. -/
@[specialize] def runFor {σ : Type} (watch : σ → Event → σ) (limit : UInt64) :
    (left : Nat) → σ → Machine → Outcome × Machine × σ
  | 0, state, m =>
    let trap := if m.status = .running then .stepLimit limit else .notRunning
    let m := if m.status = .running then { m with status := .faulted } else m
    (.error (m.fault trap), m, watch state (.fault (m.fault trap)))
  | left + 1, state, m =>
    match m.stepWith watch state with
    | (.ok .running, m, state) => runFor watch limit left state m
    | (.ok _, m, state) =>
      (.ok ⟨m.pc, m.steps⟩, m, watch state (.halt ⟨m.pc, m.steps⟩))
    | (.error trap, m, state) =>
      (.error (m.fault trap), m, watch state (.fault (m.fault trap)))

/-- Runs a machine under the eyes of a watcher until it has executed `limit` instructions. -/
@[specialize] def runWith {σ : Type} (watch : σ → Event → σ) (state : σ) (limit : UInt64)
    (m : Machine) : Outcome × Machine × σ :=
  runFor watch limit (limit.toNat - m.steps.toNat) state m

/-- Runs a machine until it has executed `limit` instructions. -/
def run (limit : UInt64) (m : Machine) : Outcome × Machine :=
  let (outcome, m, ()) := m.runWith (fun _ _ => ()) () limit
  (outcome, m)

end Machine

end TurtleVM
