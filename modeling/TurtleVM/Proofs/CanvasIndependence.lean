import TurtleVM.Proofs.ControlStates
import TurtleVM.Proofs.TurtlePosition
import TurtleVM.Proofs.Watching

/-! # Drawing never influences computation

What a program computes depends on its code alone. Two machines that differ only in turtle and
canvas (`Agrees`) have the same control state and step alike, so they execute the same instructions
on the same registers and end alike.

The pictures agree as well, up to the place of the middle: since the turtle starts at the first
position of the middle pixel, the whole pixels of a displacement do not depend on where that pixel
is. Only where coordinates have wrapped around could the pictures differ.
-/

namespace TurtleVM

/-- Whether the event tells of a move. -/
def Event.isMove : Event → Bool
  | step _ .move _ => true
  | _ => false

namespace Machine

variable {m m' : Machine}

/-! ### Machines that compute alike -/

/-- Two machines that differ at most in their turtles and canvases. -/
structure Agrees (m m' : Machine) : Prop where
  code : m.code = m'.code
  pc : m.pc = m'.pc
  status : m.status = m'.status
  steps : m.steps = m'.steps
  registers : m.scene.registers = m'.scene.registers

namespace Agrees

theorem sameControl (h : m.Agrees m') : m.SameControl m' :=
  ⟨h.code, h.pc, h.status, h.registers⟩

/-- They fetch the same instruction. -/
theorem fetch? (h : m.Agrees m') : m.fetch? = m'.fetch? := h.sameControl.fetch?

/-- They step alike, and both count the step or neither does. -/
theorem step (h : m.Agrees m') : m.step.1 = m'.step.1 ∧ m.step.2.Agrees m'.step.2 := by
  obtain ⟨hanswer, hcontrol⟩ := h.sameControl.step
  have hsteps : m.step.2.steps = m'.step.2.steps := by
    rw [steps_step, steps_step, h.fetch?, h.steps]
  exact ⟨hanswer, hcontrol.code, hcontrol.pc, hcontrol.status, hsteps, hcontrol.registers⟩

theorem after (h : m.Agrees m') (k : Nat) : (m.after k).Agrees (m'.after k) := by
  induction k with
  | zero => exact h
  | succ k ih => exact ih.step.2

/-- They are told of the same instructions. -/
theorem filter_told (h : m.Agrees m') :
    m.told.filter Event.isStep = m'.told.filter Event.isStep := by
  have hstep (m : Machine) : m.told.filter Event.isStep =
      (m.fetch?.map fun i => .step m.pc i m.scene.registers).toList := by
    unfold told
    cases m.fetch? with
    | none => rfl
    | some i =>
      dsimp only
      split <;> rfl
  rw [hstep, hstep, h.fetch?, h.pc, h.registers]

theorem filter_toldFor (h : m.Agrees m') (n : Nat) :
    (m.toldFor n).filter Event.isStep = (m'.toldFor n).filter Event.isStep := by
  induction n with
  | zero => rfl
  | succ n ih =>
    rw [toldFor_succ, toldFor_succ, List.filter_append, List.filter_append, ih,
      (h.after n).filter_told]

/-- They move along the same headings. -/
theorem headings (h : m.Agrees m') (k : Nat) : m.headings k = m'.headings k := by
  induction k with
  | zero => rfl
  | succ k ih =>
    have hk := h.after k
    by_cases hmove : (m.after k).fetch? = some .move
    · rw [headings_succ_of_move hmove, headings_succ_of_move (hk.fetch? ▸ hmove), ih, hk.registers]
    · rw [headings_succ_of_ne hmove, headings_succ_of_ne (hk.fetch? ▸ hmove), ih]

/-! ### Their runs -/

theorem takes (h : m.Agrees m') {left n : Nat} (ht : m.Takes left n) : m'.Takes left n where
  le := ht.le
  running j hj := (h.after j).status ▸ ht.running j hj
  ended := (h.after n).status ▸ ht.ended

theorem stops_iff (h : m.Agrees m') : m.Stops ↔ m'.Stops := by
  unfold Stops
  rw [h.status, h.step.1]

theorem fault_eq (h : m.Agrees m') (trap : Trap) : m.fault trap = m'.fault trap := by
  rw [fault, fault, h.pc, h.registers]

theorem stopOutcome_eq (h : m.Agrees m') : m.stopOutcome = m'.stopOutcome := by
  obtain ⟨hresult, hnext⟩ := h.step
  unfold stopOutcome
  rw [hresult]
  split
  · rw [hnext.pc, hnext.steps]
  · rw [hnext.fault_eq]

/-- They run alike. -/
theorem run (h : m.Agrees m') (limit : UInt64) :
    (m.run limit).1 = (m'.run limit).1 ∧ (m.run limit).2.Agrees (m'.run limit).2 := by
  by_cases hrun : m.status = .running
  · have hrun' : m'.status = .running := h.status ▸ hrun
    by_cases hstop : ∃ j < limit.toNat - m.steps.toNat, (m.after j).Stops
    · obtain ⟨j, hj, hstops⟩ := hstop
      rw [run_of_stops_after hj hstops,
        run_of_stops_after (h.steps ▸ hj) ((h.after j).stops_iff.mp hstops)]
      exact ⟨(h.after j).stopOutcome_eq, h.after (j + 1)⟩
    · have hgo : ∀ j < limit.toNat - m.steps.toNat, ¬ (m.after j).Stops :=
        fun j hj hstops => hstop ⟨j, hj, hstops⟩
      have hgo' : ∀ j < limit.toNat - m'.steps.toNat, ¬ (m'.after j).Stops :=
        fun j hj hstops => hgo j (h.steps ▸ hj) ((h.after j).stops_iff.mpr hstops)
      rw [run_of_not_stops hrun hgo, run_of_not_stops hrun' hgo', h.steps]
      have hend := h.after (limit.toNat - m'.steps.toNat)
      rw [hend.fault_eq]
      exact ⟨rfl, hend.code, hend.pc, rfl, hend.steps, hend.registers⟩
  · have hrun' : m'.status ≠ .running := h.status ▸ hrun
    rw [run_of_not_running hrun, run_of_not_running hrun', h.fault_eq]
    exact ⟨rfl, h⟩

end Agrees

/-! ### Pictures -/

/-- As many moves are told as there are headings. -/
theorem countP_isMove_toldFor (n : Nat) (m : Machine) :
    (m.toldFor n).countP Event.isMove = (m.headings n).length := by
  induction n with
  | zero => rfl
  | succ n ih =>
    rw [toldFor_succ, List.countP_append, ih]
    by_cases hmove : (m.after n).fetch? = some .move
    · have htold : (m.after n).told.countP Event.isMove = 1 := by
        unfold told
        rw [hmove]
        dsimp only
        split <;> rfl
      rw [headings_succ_of_move hmove, htold, List.length_append, List.length_singleton]
    · have htold : (m.after n).told.countP Event.isMove = 0 := by
        cases hfetch : (m.after n).fetch? with
        | none => rw [told_of_not_fetch hfetch, List.countP_nil]
        | some i =>
          have hne : i ≠ .move := by
            intro h
            exact hmove (h ▸ hfetch)
          rw [told_of_ne hfetch hne]
          cases i <;> first | rfl | exact absurd rfl hne
      rw [headings_succ_of_ne hmove, htold, Nat.add_zero]

/-- A pixel is drawn if some displacement leads there with the pen down. Where the middle is does
not matter. -/
theorem IsFresh.draws_iff {image : Image} {buffer : Bytes} (h : IsFresh image buffer m) {k : Nat}
    (hshort : (m.headings k).length < 2 ^ 52) (dx dy : Int) :
    m.Draws k (image.size.middle.1 + dx) (image.size.middle.2 + dy) ↔
      ∃ i j, i < j ∧ j < k ∧ (m.after i).fetch? = some .draw ∧ (m.after j).fetch? = some .move ∧
        (Heading.displacement (m.headings (j + 1))).1 / 1024 = dx ∧
        (Heading.displacement (m.headings (j + 1))).2 / 1024 = dy := by
  have hpixel : ∀ j < k, (m.after (j + 1)).scene.turtle.pixel =
      (image.size.middle.1 + dx, image.size.middle.2 + dy) ↔
        (Heading.displacement (m.headings (j + 1))).1 / 1024 = dx ∧
        (Heading.displacement (m.headings (j + 1))).2 / 1024 = dy := by
    intro j hj
    have hlength : (m.headings (j + 1)).length < 2 ^ 52 :=
      Nat.lt_of_le_of_lt (length_headings_mono hj) hshort
    rw [(h.standsAt_after hlength).pixel_eq, Prod.mk.injEq]
    omega
  unfold Draws
  constructor
  · intro ⟨i, j, hij, hj, hdraw, hmove, hat⟩
    exact ⟨i, j, hij, hj, hdraw, hmove, (hpixel j hj).mp hat⟩
  · intro ⟨i, j, hij, hj, hdraw, hmove, hat⟩
    exact ⟨i, j, hij, hj, hdraw, hmove, (hpixel j hj).mpr hat⟩

/-- Machines that compute alike draw the same displacements. -/
theorem Agrees.draws_iff {image image' : Image} {buffer buffer' : Bytes} (h : m.Agrees m')
    (hm : IsFresh image buffer m) (hm' : IsFresh image' buffer' m') {k : Nat}
    (hshort : (m.headings k).length < 2 ^ 52) (dx dy : Int) :
    m.Draws k (image.size.middle.1 + dx) (image.size.middle.2 + dy) ↔
      m'.Draws k (image'.size.middle.1 + dx) (image'.size.middle.2 + dy) := by
  rw [hm.draws_iff hshort, hm'.draws_iff (h.headings k ▸ hshort)]
  simp only [(h.after _).fetch?, h.headings]

/-- **Drawing never influences computation.** Load images of one code, with any two canvas sizes,
onto any two buffers that are long enough, and run them with any limit. Both runs execute the same
instructions at the same offsets on the same registers, and end in the same way with the same
counter, registers and count of steps. With fewer than 2^52 moves they also draw the same picture: a
point that both canvases have, seen from their middles, is set on both or on neither. -/
theorem drawing_never_influences_computation {image image' : Image} {buffer buffer' : Bytes}
    (limit : UInt64) (hcode : image.code = image'.code)
    (hfits : image.size.byteCount ≤ buffer.size) (hfits' : image'.size.byteCount ≤ buffer'.size) :
    ∃ m m' outcome events events' final final',
      Machine.load image buffer = .ok m ∧ Machine.load image' buffer' = .ok m' ∧
      m.runWith record [] limit = (outcome, final, events) ∧
      m'.runWith record [] limit = (outcome, final', events') ∧
      events.filter Event.isStep = events'.filter Event.isStep ∧
      final.pc = final'.pc ∧ final.scene.registers = final'.scene.registers ∧
      final.steps = final'.steps ∧ final.status = final'.status ∧
      (events.countP Event.isMove < 2 ^ 52 → ∀ dx dy : Int,
        image.size.Contains (image.size.middle.1 + dx) (image.size.middle.2 + dy) →
        image'.size.Contains (image'.size.middle.1 + dx) (image'.size.middle.2 + dy) →
          final.scene.canvas.get (image.size.middle.1 + dx) (image.size.middle.2 + dy) =
            final'.scene.canvas.get (image'.size.middle.1 + dx) (image'.size.middle.2 + dy)) := by
  obtain ⟨m, hload, hm⟩ := exists_isFresh image hfits
  obtain ⟨m', hload', hm'⟩ := exists_isFresh image' hfits'
  have hagrees : m.Agrees m' :=
    ⟨hm.code.trans (hcode.trans hm'.code.symm), hm.pc.trans hm'.pc.symm,
      hm.status.trans hm'.status.symm, hm.steps.trans hm'.steps.symm,
      hm.registers.trans hm'.registers.symm⟩
  obtain ⟨n, htakes, hafter, hall⟩ := exists_runWith_eq limit hm.status
  obtain ⟨n', htakes', hafter', hall'⟩ := exists_runWith_eq limit hm'.status
  -- Both runs take the same number of steps.
  obtain rfl : n = n' := (hagrees.takes htakes).unique (hagrees.steps ▸ htakes')
  obtain ⟨houtcome, hfinal⟩ := hagrees.run limit
  have hrun := hall record []
  have hrun' := hall' record []
  rw [foldl_record, List.nil_append] at hrun hrun'
  rw [← houtcome] at hrun'
  refine ⟨m, m', _, _, _, _, _, hload, hload', hrun, hrun', ?_, hfinal.pc, hfinal.registers,
    hfinal.steps, hfinal.status, ?_⟩
  · rw [List.filter_append, List.filter_append, hagrees.filter_toldFor]
  · intro hmoves dx dy hc hc'
    have hshort : (m.headings n).length < 2 ^ 52 := by
      rw [← countP_isMove_toldFor]
      refine Nat.lt_of_le_of_lt ?_ hmoves
      rw [List.countP_append]
      exact Nat.le_add_right _ _
    rw [Bool.eq_iff_iff, hafter.scene, hafter'.scene, hm.get_after_iff, hm'.get_after_iff,
      and_iff_right hc, and_iff_right hc']
    exact hagrees.draws_iff hm hm' hshort dx dy

/-- `DRW`, `MOV`, `MOV`, `HLT`, with the canvas size given. -/
def strokeRight (size : CanvasSize) : Image := ⟨some size, #[1, 2, 2, 8]⟩

/-- Since the end of the stroke is set on a canvas of 10 by 1 pixels, two to the right of its
middle, it is set on a canvas of 5 by 3 pixels as well. -/
theorem drawing_never_influences_computation_of_strokeRight :
    (strokeRight ⟨10, 1⟩).code = (strokeRight ⟨5, 3⟩).code ∧
      (strokeRight ⟨10, 1⟩).size.byteCount ≤ (#[255, 255] : Bytes).size ∧
      (strokeRight ⟨5, 3⟩).size.byteCount ≤ (#[1, 2, 3, 4] : Bytes).size ∧
      ∃ m' outcome final' events', Machine.load (strokeRight ⟨5, 3⟩) #[1, 2, 3, 4] = .ok m' ∧
        m'.runWith record [] 9 = (outcome, final', events') ∧
        final'.status = .halted ∧ final'.scene.canvas.get 4 1 = true := by
  have hcode : (strokeRight ⟨10, 1⟩).code = (strokeRight ⟨5, 3⟩).code := rfl
  have hfits : (strokeRight ⟨10, 1⟩).size.byteCount ≤ (#[255, 255] : Bytes).size := by decide
  have hfits' : (strokeRight ⟨5, 3⟩).size.byteCount ≤ (#[1, 2, 3, 4] : Bytes).size := by decide
  obtain ⟨m, m', outcome, events, events', final, final', hload, hload', hrun, hrun', -, -, -, -,
    hstatus, hpicture⟩ := drawing_never_influences_computation 9 hcode hfits hfits'
  obtain rfl := Except.ok.inj hload
  obtain ⟨-, hrest⟩ := Prod.mk.inj hrun
  obtain ⟨rfl, rfl⟩ := Prod.mk.inj hrest
  refine ⟨hcode, hfits, hfits', m', outcome, final', events', hload', hrun', hstatus.symm, ?_⟩
  refine (hpicture (by decide) 2 0 (by decide) (by decide)).symm.trans ?_
  decide +kernel

end Machine

end TurtleVM
