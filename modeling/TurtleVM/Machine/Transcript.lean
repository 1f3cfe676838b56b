import TurtleVM.Machine.Run

/-! # Transcripts

A transcript tells a run in lines of text: one for each instruction with the registers before it,
one for each point plotted, and a last one for how the run ended.

The lines go to a sink that may refuse them, for a full disk say. The first refusal is kept, and
nothing is sent to the sink after it; the run itself goes on.
-/

namespace TurtleVM

/-- The line of a transcript for an event. -/
def Event.text : Event → String
  | step pc i registers =>
    Text.hexadecimal 4 pc ++ "  " ++ Text.padRight 18 i.text ++ " " ++ registers.text
  | plot p =>
    "        plot " ++ toString p.x ++ " " ++ toString p.y ++
      (if p.onCanvas then "" else " (clipped)")
  | halt h =>
    "halt at " ++ Text.hexadecimal 4 h.pc ++ " after " ++ toString h.steps.toNat ++ " steps"
  | fault f => "fault at " ++ Text.hexadecimal 4 f.pc ++ ": " ++ f.trap.message

/-- A transcript on its way to a sink of type `ω`, which refuses with reasons of type `ε`. -/
structure Transcript (ω ε : Type) where
  sink : ω
  /-- Why the sink refused the first time, if it did. -/
  refusal : Option ε

namespace Transcript

variable {ω ε : Type}

/-- A transcript without lines. -/
def start (sink : ω) : Transcript ω ε := ⟨sink, none⟩

/-- Sends a text to the sink unless it has refused before. -/
def send (write : String → ω → Except ε Unit × ω) (text : String) :
    Transcript ω ε → Transcript ω ε
  | ⟨sink, some reason⟩ => ⟨sink, some reason⟩
  | ⟨sink, none⟩ =>
    match write text sink with
    | (.ok (), sink) => ⟨sink, none⟩
    | (.error reason, sink) => ⟨sink, some reason⟩

/-- The transcript after one more event. -/
def record (write : String → ω → Except ε Unit × ω) (t : Transcript ω ε) (e : Event) :
    Transcript ω ε :=
  t.send write (e.text ++ "\n")

/-- The sink, unless it has refused a line. -/
def finish (t : Transcript ω ε) : Except ε ω :=
  match t.refusal with
  | some reason => .error reason
  | none => .ok t.sink

end Transcript

/-! ### Sinks -/

/-- A sink that takes every text. -/
def appendText (text : String) (sink : String) : Except Empty Unit × String :=
  (.ok (), sink ++ text)

/-- A sink with room for some bytes. -/
structure BoundedSink where
  written : Bytes
  /-- Bytes that can still be written. -/
  room : Nat

/-- The sink refuses because it is full. -/
inductive StorageFull where
  | storageFull
  deriving DecidableEq

/-- Writes the bytes of a text that fit. The sink refuses if some do not. -/
def BoundedSink.write (text : String) : BoundedSink → Except StorageFull Unit × BoundedSink
  | ⟨written, room⟩ =>
    let bytes := text.toUTF8.data
    if bytes.size ≤ room then (.ok (), ⟨written ++ bytes, room - bytes.size⟩)
    else (.error .storageFull, ⟨written ++ bytes.extract 0 room, 0⟩)

end TurtleVM
