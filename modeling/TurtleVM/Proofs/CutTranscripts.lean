import TurtleVM.Machine.Transcript
import TurtleVM.Proofs.Watching

/-! # Transcripts on a device that runs full

The lines of a transcript go out in pieces, and each piece in as many writes as the device needs to
take it. A device with room for `n` bytes takes what fits of the write that goes beyond them and
refuses the next one. However the lines are cut into pieces, it ends up with the first `n` bytes of
the transcript, and after the refused write there is no other: `full_device_cuts_transcript`.

What is said of a device here holds of every sink that `TakesUpTo` a number of bytes, such as the
sink that is handed whole lines.
-/

namespace TurtleVM

/-! ### Devices -/

/-- A device with its answers to the writes so far. -/
structure Device where
  written : List UInt8
  /-- Bytes that can still be written. -/
  room : Nat
  /-- How many bytes each write took, or why it was refused. The earliest write comes first. -/
  answers : List (Except StorageFull Nat)

namespace Device

/-- A device that nothing is written to yet. -/
def blank (room : Nat) : Device := ⟨[], room, []⟩

/-- One write. The device takes the bytes that fit, and refuses if there are bytes and none fits. -/
def write (bytes : List UInt8) (d : Device) : Except StorageFull Nat × Device :=
  if bytes ≠ [] ∧ d.room = 0 then
    (.error .storageFull, { d with answers := d.answers ++ [.error .storageFull] })
  else
    let taken := min bytes.length d.room
    (.ok taken, ⟨d.written ++ bytes.take taken, d.room - taken, d.answers ++ [.ok taken]⟩)

/-- Writes bytes until all of them are taken or a write is refused. -/
def writeAll : List UInt8 → Device → Except StorageFull Unit × Device
  | [], d => (.ok (), d)
  | byte :: bytes, d =>
    match d.write (byte :: bytes) with
    | (.error reason, d) => (.error reason, d)
    -- The first byte is taken by every write that is not refused.
    | (.ok taken, d) => writeAll (bytes.drop (taken - 1)) d
termination_by bytes => bytes.length

/-- Writes pieces one after the other, up to the first that is not taken as a whole. -/
def writePieces : List (List UInt8) → Device → Except StorageFull Unit × Device
  | [], d => (.ok (), d)
  | piece :: pieces, d =>
    match d.writeAll piece with
    | (.ok (), d) => writePieces pieces d
    | (.error reason, d) => (.error reason, d)

end Device

/-- The bytes of a text. -/
def bytesOf (text : String) : List UInt8 := text.toUTF8.data.toList

theorem bytesOf_append (a b : String) : bytesOf (a ++ b) = bytesOf a ++ bytesOf b := by
  simp [bytesOf]

/-- How texts are cut into the pieces in which they are written. -/
structure Cutting where
  pieces : String → List (List UInt8)
  flatten_pieces : ∀ text, (pieces text).flatten = bytesOf text

/-- A text may be left in one piece. -/
instance : Inhabited Cutting := ⟨⟨fun text => [bytesOf text], by simp⟩⟩

/-- Writes a text piece by piece. -/
def Cutting.write (c : Cutting) (text : String) (d : Device) : Except StorageFull Unit × Device :=
  d.writePieces (c.pieces text)

/-! ### Sinks with limited room -/

/-- A sink takes up to `n` bytes. What it looks like is told by `Received`, from the bytes it has
been sent. -/
structure TakesUpTo {ω : Type} (write : String → ω → Except StorageFull Unit × ω)
    (Received : List UInt8 → ω → Prop) (n : Nat) : Prop where
  /-- As long as all bytes have fitted, a text is taken or cut. -/
  answers : ∀ {sent sink}, Received sent sink → sent.length ≤ n → ∀ text,
    ((write text sink).1 = .ok () ↔ (sent ++ bytesOf text).length ≤ n) ∧
      Received (sent ++ bytesOf text) (write text sink).2
  /-- Once some byte has not fitted, the bytes behind it leave no trace. -/
  full : ∀ {sent sink}, Received sent sink → n < sent.length → ∀ more,
    Received (sent ++ more) sink

namespace Device

variable {n : Nat} {sent bytes : List UInt8} {d : Device}

/-- What a device looks like that had room for `n` bytes and has been sent some: it holds those that
fit, and has refused one write if there are others. -/
structure Received (n : Nat) (sent : List UInt8) (d : Device) : Prop where
  written : d.written = sent.take n
  room : d.room = n - sent.length
  answers : ∃ counts : List Nat, d.answers =
    counts.map Except.ok ++ if n < sent.length then [.error .storageFull] else []

theorem received_blank (n : Nat) : Received n [] (blank n) where
  written := List.take_nil.symm
  room := rfl
  answers := ⟨[], by simp [blank]⟩

theorem Received.more (h : Received n sent d) (hfull : n < sent.length) (more : List UInt8) :
    Received n (sent ++ more) d where
  written := by rw [h.written, List.take_append_of_le_length (Nat.le_of_lt hfull)]
  room := by rw [h.room, List.length_append]; omega
  answers := by
    have hlonger : n < (sent ++ more).length := by rw [List.length_append]; omega
    obtain ⟨counts, hcounts⟩ := h.answers
    rw [if_pos hfull] at hcounts
    exact ⟨counts, by rw [hcounts, if_pos hlonger]⟩

/-- A write into no room is refused. -/
theorem write_of_full (hne : bytes ≠ []) (hfull : d.room = 0) : d.write bytes =
    (.error .storageFull, { d with answers := d.answers ++ [.error .storageFull] }) :=
  if_pos ⟨hne, hfull⟩

/-- A write into some room takes the bytes that fit. -/
theorem write_of_room (bytes : List UInt8) (hroom : d.room ≠ 0) : d.write bytes =
    (.ok (min bytes.length d.room), ⟨d.written ++ bytes.take (min bytes.length d.room),
      d.room - min bytes.length d.room, d.answers ++ [.ok (min bytes.length d.room)]⟩) :=
  if_neg fun h => hroom h.2

theorem Received.refuse (h : Received n sent d) (hfull : sent.length = n) (hne : bytes ≠ []) :
    Received n (sent ++ bytes) { d with answers := d.answers ++ [.error .storageFull] } where
  written := by
    rw [List.take_append_of_le_length (Nat.le_of_eq hfull.symm)]
    exact h.written
  room := by
    rw [List.length_append, Nat.sub_eq_zero_of_le (by omega)]
    exact h.room.trans (by omega)
  answers := by
    have hpos := List.length_pos_iff.mpr hne
    have hlonger : n < (sent ++ bytes).length := by rw [List.length_append]; omega
    obtain ⟨counts, hcounts⟩ := h.answers
    rw [if_neg (by omega), List.append_nil] at hcounts
    exact ⟨counts, by rw [hcounts, if_pos hlonger]⟩

theorem Received.take {taken : Nat} (h : Received n sent d) (htaken : taken ≤ bytes.length)
    (hfit : sent.length + taken ≤ n) : Received n (sent ++ bytes.take taken)
      ⟨d.written ++ bytes.take taken, d.room - taken, d.answers ++ [.ok taken]⟩ := by
  have hlength : (sent ++ bytes.take taken).length = sent.length + taken := by
    rw [List.length_append, List.length_take_of_le htaken]
  obtain ⟨counts, hcounts⟩ := h.answers
  rw [if_neg (by omega), List.append_nil] at hcounts
  refine ⟨?_, ?_, counts ++ [taken], ?_⟩
  · show d.written ++ bytes.take taken = (sent ++ bytes.take taken).take n
    have hall : (sent ++ bytes.take taken).take n = sent ++ bytes.take taken :=
      List.take_of_length_le (by omega)
    rw [hall, h.written, List.take_of_length_le (by omega)]
  · rw [hlength, ← Nat.sub_sub, ← h.room]
  · rw [if_neg (by omega), hcounts]
    simp

/-- A write takes the first bytes, at least one, or else it is refused and there is no room. -/
theorem Received.write (h : Received n sent d) (hfit : sent.length ≤ n) (hne : bytes ≠ []) :
    (∃ k d', d.write bytes = (.ok (k + 1), d') ∧ (sent ++ bytes.take (k + 1)).length ≤ n ∧
      Received n (sent ++ bytes.take (k + 1)) d') ∨
    ∃ d', d.write bytes = (.error .storageFull, d') ∧ n < (sent ++ bytes).length ∧
      Received n (sent ++ bytes) d' := by
  have hpos : 0 < bytes.length := List.length_pos_iff.mpr hne
  have hroom := h.room
  by_cases hfull : d.room = 0
  · have hlonger : n < (sent ++ bytes).length := by rw [List.length_append]; omega
    exact .inr ⟨_, write_of_full hne hfull, hlonger, h.refuse (by omega) hne⟩
  · obtain ⟨k, hk⟩ := Nat.exists_eq_add_one_of_ne_zero (n := min bytes.length d.room) (by omega)
    have hle : k + 1 ≤ bytes.length := by omega
    have hwrite := write_of_room bytes hfull
    rw [hk] at hwrite
    refine .inl ⟨k, _, hwrite, ?_, h.take hle (by omega)⟩
    rw [List.length_append, List.length_take_of_le hle]
    omega

/-- Bytes are written until the room is used up. -/
theorem Received.writeAll (h : Received n sent d) (hfit : sent.length ≤ n) (bytes : List UInt8) :
    ((d.writeAll bytes).1 = .ok () ↔ (sent ++ bytes).length ≤ n) ∧
      Received n (sent ++ bytes) (d.writeAll bytes).2 := by
  fun_induction Device.writeAll bytes d generalizing sent with
  | case1 d =>
    rw [List.append_nil]
    exact ⟨iff_of_true rfl hfit, h⟩
  | case2 byte bytes d reason d' hwrite =>
    rcases h.write hfit (List.cons_ne_nil byte bytes) with
      ⟨k, d₁, htaken, -⟩ | ⟨d₁, hrefused, hlonger, hleft⟩
    · cases htaken.symm.trans hwrite
    · obtain ⟨-, rfl⟩ := Prod.mk.inj (hrefused.symm.trans hwrite)
      exact ⟨iff_of_false nofun (Nat.not_le.mpr hlonger), hleft⟩
  | case3 byte bytes d taken d' hwrite ih =>
    rcases h.write hfit (List.cons_ne_nil byte bytes) with
      ⟨k, d₁, htaken, hfit', hleft⟩ | ⟨d₁, hrefused, -⟩
    · obtain ⟨hk, rfl⟩ := Prod.mk.inj (htaken.symm.trans hwrite)
      obtain rfl := Except.ok.inj hk
      -- What the write has left over is written next.
      have hsplit : sent ++ (byte :: bytes).take (k + 1) ++ bytes.drop (k + 1 - 1) =
          sent ++ byte :: bytes := by
        rw [List.take_succ_cons, Nat.add_sub_cancel, List.append_assoc, List.cons_append,
          List.take_append_drop]
      rw [← hsplit]
      exact ih hleft hfit'
    · cases hrefused.symm.trans hwrite

/-- It makes no difference in which pieces bytes are written. -/
theorem Received.writePieces (h : Received n sent d) (hfit : sent.length ≤ n)
    (pieces : List (List UInt8)) :
    ((d.writePieces pieces).1 = .ok () ↔ (sent ++ pieces.flatten).length ≤ n) ∧
      Received n (sent ++ pieces.flatten) (d.writePieces pieces).2 := by
  induction pieces generalizing sent d with
  | nil =>
    rw [List.flatten_nil, List.append_nil]
    exact ⟨iff_of_true rfl hfit, h⟩
  | cons piece pieces ih =>
    obtain ⟨hanswer, hleft⟩ := h.writeAll hfit piece
    rw [List.flatten_cons, ← List.append_assoc]
    rcases hpiece : d.writeAll piece with ⟨reason | ⟨⟩, d'⟩
    all_goals
      rw [hpiece] at hanswer hleft
      simp only [Device.writePieces, hpiece]
    · -- The piece has not fitted, so the others are not written.
      have hfull : n < (sent ++ piece).length := Nat.not_le.mp fun hle => nomatch hanswer.mpr hle
      refine ⟨iff_of_false nofun ?_, hleft.more hfull _⟩
      rw [List.length_append]
      omega
    · exact ih hleft (hanswer.mp rfl)

end Device

/-- However texts are cut, a device takes what fits. -/
theorem Cutting.takesUpTo (c : Cutting) (n : Nat) : TakesUpTo c.write (Device.Received n) n where
  answers h hfit text := by
    rw [← c.flatten_pieces text]
    exact h.writePieces hfit (c.pieces text)
  full h hfull more := h.more hfull more

/-- What a bounded sink looks like that had room for `n` bytes and has been sent some. -/
def BoundedSink.Received (n : Nat) (sent : List UInt8) (sink : BoundedSink) : Prop :=
  sink = ⟨(sent.take n).toArray, n - sent.length⟩

theorem BoundedSink.received_empty (n : Nat) : Received n [] ⟨#[], n⟩ := by
  simp [Received]

/-- Also a sink that is handed whole texts takes what fits. -/
theorem BoundedSink.takesUpTo (n : Nat) : TakesUpTo BoundedSink.write (Received n) n where
  answers := by
    rintro sent sink rfl hfit text
    have hsize : text.toUTF8.data.size = (bytesOf text).length := rfl
    have hroom : n - sent.length - (bytesOf text).length = n - (sent ++ bytesOf text).length := by
      rw [List.length_append, Nat.sub_sub]
    have htake : (sent ++ bytesOf text).take n =
        sent.take n ++ (bytesOf text).take (n - sent.length) := List.take_append
    simp only [BoundedSink.write, hsize, Received, ← hroom, htake]
    split
    · rename_i hle
      refine ⟨iff_of_true rfl (by rw [List.length_append]; omega), ?_⟩
      rw [List.take_of_length_le hle]
      simp [bytesOf]
    · rename_i hlt
      refine ⟨iff_of_false nofun (by rw [List.length_append]; omega), ?_⟩
      rw [Nat.sub_eq_zero_of_le (Nat.le_of_not_le hlt)]
      simp [bytesOf]
  full := by
    rintro sent sink rfl hfull more
    have htake : (sent ++ more).take n = sent.take n :=
      List.take_append_of_le_length (Nat.le_of_lt hfull)
    have hroom : n - (sent ++ more).length = n - sent.length := by
      rw [List.length_append]
      omega
    unfold Received
    rw [htake, hroom]

/-! ### Transcripts -/

/-- The bytes of the lines of a transcript. -/
def linesOf (events : List Event) : List UInt8 := events.flatMap fun e => bytesOf (e.text ++ "\n")

namespace Transcript

/-- A sink that takes every text holds the whole transcript. -/
theorem bytesOf_sink_foldl (events : List Event) (shown : String) :
    bytesOf (events.foldl (record appendText) (start shown)).sink =
      bytesOf shown ++ linesOf events := by
  induction events generalizing shown with
  | nil => exact (List.append_nil _).symm
  | cons e events ih =>
    show bytesOf (events.foldl (record appendText) (start (shown ++ (e.text ++ "\n")))).sink = _
    rw [ih, bytesOf_append, List.append_assoc]
    rfl

variable {ω : Type} {write : String → ω → Except StorageFull Unit × ω}
variable {Received : List UInt8 → ω → Prop} {n : Nat} {sent : List UInt8}
variable {t : Transcript ω StorageFull}

/-- What a transcript looks like that has sent some bytes to a sink with room for `n`. -/
structure HasSent (Received : List UInt8 → ω → Prop) (n : Nat) (sent : List UInt8)
    (t : Transcript ω StorageFull) : Prop where
  sink : Received sent t.sink
  refusal : t.refusal = none ↔ sent.length ≤ n

/-- One more line is sent, unless there has been a refusal. -/
theorem HasSent.record (hw : TakesUpTo write Received n) (h : t.HasSent Received n sent)
    (e : Event) : (t.record write e).HasSent Received n (sent ++ bytesOf (e.text ++ "\n")) := by
  obtain ⟨sink, refusal⟩ := t
  obtain ⟨hsink, hrefusal⟩ := h
  cases refusal with
  | some reason =>
    have hfull : n < sent.length := Nat.not_le.mp fun hle => nomatch hrefusal.mpr hle
    refine ⟨hw.full hsink hfull _, iff_of_false nofun ?_⟩
    rw [List.length_append]
    omega
  | none =>
    obtain ⟨hanswer, hleft⟩ := hw.answers hsink (hrefusal.mp rfl) (e.text ++ "\n")
    unfold Transcript.record send
    rcases hwrite : write (e.text ++ "\n") sink with ⟨reason | ⟨⟩, sink'⟩
    all_goals
      rw [hwrite] at hanswer hleft
      simp only [hwrite]
    · exact ⟨hleft, iff_of_false nofun fun hle => nomatch hanswer.mpr hle⟩
    · exact ⟨hleft, iff_of_true rfl (hanswer.mp rfl)⟩

/-- Line after line is sent until the first refusal. -/
theorem HasSent.foldl (hw : TakesUpTo write Received n) (h : t.HasSent Received n sent)
    (events : List Event) :
    (events.foldl (Transcript.record write) t).HasSent Received n (sent ++ linesOf events) := by
  induction events generalizing t sent with
  | nil =>
    show t.HasSent Received n (sent ++ [])
    rwa [List.append_nil]
  | cons e events ih =>
    have hrest := ih (h.record hw e)
    rwa [List.append_assoc] at hrest

/-- A whole transcript is sent to a sink that has not been sent anything before. -/
theorem hasSent_foldl (hw : TakesUpTo write Received n) {sink : ω} (h : Received [] sink)
    (events : List Event) :
    (events.foldl (Transcript.record write) (start sink)).HasSent Received n (linesOf events) := by
  have hstart : (start sink : Transcript ω StorageFull).HasSent Received n [] :=
    ⟨h, iff_of_true rfl (Nat.zero_le n)⟩
  exact hstart.foldl hw events

theorem HasSent.refusal_eq (h : t.HasSent Received n sent) :
    t.refusal = if n < sent.length then some .storageFull else none := by
  split
  · rename_i hfull
    have hne : t.refusal ≠ none := fun hnone => Nat.not_le.mpr hfull (h.refusal.mp hnone)
    obtain ⟨reason, hreason⟩ := Option.ne_none_iff_exists'.mp hne
    exact hreason
  · rename_i hfit
    exact h.refusal.mpr (Nat.le_of_not_lt hfit)

theorem HasSent.finish (h : t.HasSent Received n sent) :
    t.finish = if n < sent.length then .error .storageFull else .ok t.sink := by
  unfold Transcript.finish
  rw [h.refusal_eq]
  by_cases hfull : n < sent.length
  · simp only [if_pos hfull]
  · simp only [if_neg hfull]

end Transcript

/-! ### Runs -/

/-- Whatever machine runs, its watcher is told event after event. -/
theorem Machine.exists_runWith_eq_foldl (limit : UInt64) (m : Machine) :
    ∃ events : List Event, ∀ {σ : Type} (watch : σ → Event → σ) (state : σ),
      m.runWith watch state limit =
        ((m.run limit).1, (m.run limit).2, events.foldl watch state) := by
  by_cases hrun : m.status = .running
  · obtain ⟨n, -, -, hall⟩ := exists_runWith_eq limit hrun
    exact ⟨_, hall⟩
  · refine ⟨[.fault (m.fault .notRunning)], fun watch state => ?_⟩
    rw [run_of_not_running hrun, runWith, runFor_of_not_running _ _ _ _ hrun]
    rfl

/-- **A device that runs full cuts the transcript and does nothing else.** Let the transcript of a
run be written to a device with room for `n` bytes, its lines cut into pieces in any way. Then the
outcome and the machine that is left are those of the unwatched run. The device holds the first `n`
bytes of the transcript that a sink without limit gets. If that is not all of it, one write has been
refused, which was the last, and finishing gives its reason; otherwise none has been refused. A
sink that is handed whole lines ends up the same. -/
theorem full_device_cuts_transcript (m : Machine) (limit : UInt64) (n : Nat) (c : Cutting) :
    let text := (m.runWith (Transcript.record appendText) (Transcript.start "") limit).2.2.sink
    let told := m.runWith (Transcript.record c.write) (Transcript.start (Device.blank n)) limit
    let device := told.2.2.sink
    (told.1, told.2.1) = m.run limit ∧
      device.written = (bytesOf text).take n ∧
      told.2.2.finish =
        (if n < (bytesOf text).length then .error .storageFull else .ok device) ∧
      (∃ counts : List Nat, device.answers = counts.map Except.ok ++
        if n < (bytesOf text).length then [.error .storageFull] else []) ∧
      m.runWith (Transcript.record BoundedSink.write) (Transcript.start ⟨#[], n⟩) limit =
        (told.1, told.2.1, ⟨⟨device.written.toArray, device.room⟩, told.2.2.refusal⟩) := by
  obtain ⟨events, hall⟩ := m.exists_runWith_eq_foldl limit
  have htext : bytesOf _ = linesOf events := Transcript.bytesOf_sink_foldl events ""
  have hpieces := Transcript.hasSent_foldl (c.takesUpTo n) (Device.received_blank n) events
  have hwhole :=
    Transcript.hasSent_foldl (BoundedSink.takesUpTo n) (BoundedSink.received_empty n) events
  simp only [hall, htext]
  refine ⟨trivial, hpieces.sink.written, hpieces.finish, hpieces.sink.answers, ?_⟩
  -- Both sinks have been sent the same lines.
  have hsink : (events.foldl (Transcript.record BoundedSink.write) (.start ⟨#[], n⟩)).sink =
      ⟨((linesOf events).take n).toArray, n - (linesOf events).length⟩ := hwhole.sink
  rw [hpieces.sink.written, hpieces.sink.room, hpieces.refusal_eq, ← hsink, ← hwhole.refusal_eq]

end TurtleVM
