import Mathlib.Data.List.Forall2
import TurtleVM.Proofs.Lexing

/-! # Assembling a source text

A source text is assembled as its lines are once all of them have been read
(`assembleSource_eq_lexing_then_assembling`), with one difference: a line is laid out as soon as it
is read. Of a line that is refused and a later one that cannot be read, the refused line is
reported.
-/

namespace TurtleVM.Assembly

variable {α : Type} {read : α → Except Error Line} {capacity : Nat} {lines : List Line}
variable {error : Error}

/-! ### Refused lines -/

theorem layOutAll_append (done rest : List α) (l : Layout) :
    layOutAll read (done ++ rest) l = layOutAll read done l >>= layOutAll read rest := by
  induction done generalizing l with
  | nil => rfl
  | cons item done ih =>
    simp only [List.cons_append, layOutAll]
    split
    · rfl
    · split
      · rename_i l' _
        exact ih l'
      · rfl

/-- Behind the lines before it, some line is refused with the error. It is the first one, since the
lines before it can be laid out. -/
def FirstRefused (capacity : Nat) (lines : List Line) (error : Error) : Prop :=
  ∃ done line rest l, lines = done ++ line :: rest ∧
    layOutAll .ok done (.empty capacity) = .ok l ∧ (l.addLine line).1 = .error error

/-- Laying out fails with the error of the first refused line. -/
theorem layOutAll_eq_error_iff :
    layOutAll .ok lines (.empty capacity) = .error error ↔ FirstRefused capacity lines error := by
  unfold FirstRefused
  generalize Layout.empty capacity = l
  constructor
  · intro h
    induction lines generalizing l with
    | nil => cases h
    | cons line lines ih =>
      rw [layOutAll] at h
      rcases hadd : l.addLine line with ⟨e | ⟨⟩, l'⟩
      · simp only [hadd] at h
        refine ⟨[], line, lines, l, rfl, rfl, ?_⟩
        rw [hadd]
        exact congrArg _ (Except.error.inj h)
      · simp only [hadd] at h
        obtain ⟨done, refused, rest, l'', hlines, hdone, hrefused⟩ := ih l' h
        refine ⟨line :: done, refused, rest, l'', congrArg (line :: ·) hlines, ?_, hrefused⟩
        simp only [layOutAll, hadd]
        exact hdone
  · rintro ⟨done, line, rest, l', hlines, hdone, hrefused⟩
    rw [hlines, layOutAll_append, hdone, ok_bind]
    rcases hadd : l'.addLine line with ⟨e | ⟨⟩, l''⟩
    · rw [hadd] at hrefused
      simp only [layOutAll, hadd]
      exact congrArg _ (Except.error.inj hrefused)
    · rw [hadd] at hrefused
      cases hrefused

/-! ### Lines that are read -/

/-- Reads a text with its number. -/
def Line.lexNumbered (item : List Char × Nat) : Except Error Line := Line.lex item.2 item.1

/-- Texts with their numbers are read as these lines, one by one. -/
def ReadAs (texts : List (List Char × Nat)) (lines : List Line) : Prop :=
  List.Forall₂ (fun text line => Line.lexNumbered text = .ok line) texts lines

/-- A source is read as these lines up to a line that cannot be read. -/
def StopsReading (source : List Char) (lines : List Line) (error : Error) : Prop :=
  ∃ done text rest, sourceLines source = done ++ text :: rest ∧ ReadAs done lines ∧
    Line.lexNumbered text = .error error

variable {texts : List (List Char × Nat)} {source : List Char}

theorem ReadAs.mapM_eq (h : ReadAs texts lines) : texts.mapM Line.lexNumbered = .ok lines := by
  induction h with
  | nil => rfl
  | cons hline _ ih =>
    rw [List.mapM_cons]
    exact bind_eq_ok.mpr ⟨_, hline, bind_eq_ok.mpr ⟨_, ih, rfl⟩⟩

/-- Texts can all be read, or some text is the first that cannot. -/
theorem exists_readAs_or_stops (texts : List (List Char × Nat)) :
    (∃ lines, ReadAs texts lines) ∨ ∃ done text rest lines error,
      texts = done ++ text :: rest ∧ ReadAs done lines ∧ Line.lexNumbered text = .error error := by
  induction texts with
  | nil => exact .inl ⟨[], .nil⟩
  | cons first texts ih =>
    cases hfirst : Line.lexNumbered first with
    | error e => exact .inr ⟨[], first, texts, [], e, rfl, .nil, hfirst⟩
    | ok line =>
      rcases ih with ⟨lines, hlines⟩ | ⟨done, text, rest, lines, e, htexts, hdone, htext⟩
      · exact .inl ⟨line :: lines, .cons hfirst hlines⟩
      · exact .inr ⟨first :: done, text, rest, line :: lines, e, congrArg (first :: ·) htexts,
          .cons hfirst hdone, htext⟩

/-! ### Numbers of lines -/

theorem Line.number_of_lex {number : Nat} {text : List Char} {line : Line}
    (h : Line.lex number text = .ok line) : line.number = number := by
  unfold Line.lex at h
  split at h
  · cases h
    rfl
  · cases h

theorem Line.exists_cause_of_lex {number : Nat} {text : List Char}
    (h : Line.lex number text = .error error) : ∃ cause, error = .onLine number cause := by
  unfold Line.lex at h
  split at h
  · cases h
  · rename_i cause _
    exact ⟨cause, (Except.error.inj h).symm⟩

theorem ReadAs.map_number (h : ReadAs texts lines) :
    lines.map Line.number = texts.map Prod.snd := by
  induction h with
  | nil => rfl
  | cons hline _ ih => rw [List.map_cons, List.map_cons, ih, Line.number_of_lex hline]

/-- Lines of a source are numbered from 1. -/
theorem ReadAs.map_number_sourceLines (h : ReadAs (sourceLines source) lines) :
    lines.map Line.number = List.range' 1 lines.length := by
  have hlength : lines.length = (Text.lines source).length := by
    rw [← List.Forall₂.length_eq h, sourceLines, List.length_zipIdx]
  rw [h.map_number, hlength]
  exact List.zipIdx_map_snd 1 _

theorem number_of_sourceLines_eq_append {done rest : List (List Char × Nat)}
    {text : List Char × Nat} (h : sourceLines source = done ++ text :: rest) :
    text.2 = done.length + 1 := by
  have hlookup : (sourceLines source)[done.length]? = some text := by
    rw [h, List.getElem?_append_right (Nat.le_refl _), Nat.sub_self]
    rfl
  rw [sourceLines, List.getElem?_zipIdx] at hlookup
  obtain ⟨_, -, rfl⟩ := Option.map_eq_some_iff.mp hlookup
  exact Nat.add_comm _ _

/-- The line that cannot be read is reported with its number. -/
theorem StopsReading.exists_cause (h : StopsReading source lines error) :
    ∃ cause, error = .onLine (lines.length + 1) cause := by
  obtain ⟨done, text, rest, hsource, hdone, htext⟩ := h
  have hnumber : text.2 = lines.length + 1 := by
    rw [number_of_sourceLines_eq_append hsource, List.Forall₂.length_eq hdone]
  rw [← hnumber]
  exact Line.exists_cause_of_lex htext

/-! ### Sources -/

/-- Up to the line that cannot be read, a source is laid out as its lines are. -/
theorem StopsReading.layOutAll_eq (h : StopsReading source lines error) (l : Layout) :
    layOutAll Line.lexNumbered (sourceLines source) l =
      layOutAll .ok lines l >>= fun _ => .error error := by
  obtain ⟨done, text, rest, hsource, hdone, htext⟩ := h
  rw [hsource, layOutAll_append, layOutAll_of_mapM hdone.mapM_eq]
  have hstop : layOutAll Line.lexNumbered (text :: rest) = fun _ => .error error := by
    funext l
    rw [layOutAll, htext]
  rw [hstop]

/-- A source that cannot be laid out is not assembled, and nothing is written. -/
theorem assembleSource_of_layOutAll_error (buffer : Bytes)
    (h : layOutAll Line.lexNumbered (sourceLines source) (.empty capacity) = .error error) :
    assembleSource capacity source buffer = (.error error, buffer) := by
  show assembleWith Line.lexNumbered capacity (sourceLines source) buffer = _
  rw [assembleWith, h]

/-- A source is assembled exactly if its lines can be read and are assembled the same. -/
theorem assembleSource_eq_ok_iff {buffer written : Bytes} {d : Image.Descriptor} :
    assembleSource capacity source buffer = (.ok d, written) ↔
      ∃ lines, ReadAs (sourceLines source) lines ∧
        assemble capacity lines buffer = (.ok d, written) := by
  constructor
  · intro h
    rcases exists_readAs_or_stops (sourceLines source) with
      ⟨lines, hread⟩ | ⟨done, text, rest, lines, e, hsource, hdone, htext⟩
    · refine ⟨lines, hread, ?_⟩
      rw [← assembleSource_of_mapM capacity buffer hread.mapM_eq]
      exact h
    · -- Laying out stops at the unreadable line, if not before.
      have hstops : StopsReading source lines e := ⟨done, text, rest, hsource, hdone, htext⟩
      have hlayout := hstops.layOutAll_eq (.empty capacity)
      cases hlines : layOutAll .ok lines (.empty capacity) with
      | error refused =>
        rw [hlines, error_bind] at hlayout
        rw [assembleSource_of_layOutAll_error buffer hlayout] at h
        cases h
      | ok l =>
        rw [hlines, ok_bind] at hlayout
        rw [assembleSource_of_layOutAll_error buffer hlayout] at h
        cases h
  · intro ⟨lines, hread, hlines⟩
    exact (assembleSource_of_mapM capacity buffer hread.mapM_eq).trans hlines

/-- **Assembling a source is reading all its lines and then assembling them**, up to which error is
reported. If every line can be read, the outcome and the buffer are those of the lines, numbered
from 1. If not, the buffer is left as it was, and the error is that of the first refused line before
the first that cannot be read, if one is refused, and else that of the latter. One of the two is
the case. Once a source has been laid out, emitting it is emitting the lines: reading it a second
time brings no error of its own. -/
theorem assembleSource_eq_lexing_then_assembling (capacity : Nat) (source : List Char)
    (buffer : Bytes) :
    (∀ lines, ReadAs (sourceLines source) lines →
      lines.map Line.number = List.range' 1 lines.length ∧
      assembleSource capacity source buffer = assemble capacity lines buffer) ∧
    (∀ lines unreadable, StopsReading source lines unreadable →
      (∃ cause, unreadable = .onLine (lines.length + 1) cause) ∧
      ∃ error, assembleSource capacity source buffer = (.error error, buffer) ∧
        (FirstRefused capacity lines error ∨
          (∀ refused, ¬ FirstRefused capacity lines refused) ∧ error = unreadable)) ∧
    ((∃ lines, ReadAs (sourceLines source) lines) ∨
      ∃ lines unreadable, StopsReading source lines unreadable) ∧
    (∀ l, layOutAll Line.lexNumbered (sourceLines source) (.empty capacity) = .ok l →
      ∃ lines, ReadAs (sourceLines source) lines ∧
        ∀ e, emitAll Line.lexNumbered (sourceLines source) e = emitAll .ok lines e) := by
  have htotal : (∃ lines, ReadAs (sourceLines source) lines) ∨
      ∃ lines unreadable, StopsReading source lines unreadable := by
    rcases exists_readAs_or_stops (sourceLines source) with
      hread | ⟨done, text, rest, lines, e, hsource, hdone, htext⟩
    · exact .inl hread
    · exact .inr ⟨lines, e, done, text, rest, hsource, hdone, htext⟩
  refine ⟨?_, ?_, htotal, ?_⟩
  · intro lines hread
    exact ⟨hread.map_number_sourceLines, assembleSource_of_mapM capacity buffer hread.mapM_eq⟩
  · intro lines unreadable hstops
    refine ⟨hstops.exists_cause, ?_⟩
    have hlayout := hstops.layOutAll_eq (.empty capacity)
    cases hlines : layOutAll .ok lines (.empty capacity) with
    | error e =>
      -- A line is refused before the unreadable line is reached.
      rw [hlines, error_bind] at hlayout
      exact ⟨e, assembleSource_of_layOutAll_error buffer hlayout,
        .inl (layOutAll_eq_error_iff.mp hlines)⟩
    | ok l =>
      rw [hlines, ok_bind] at hlayout
      refine ⟨unreadable, assembleSource_of_layOutAll_error buffer hlayout, .inr ⟨?_, rfl⟩⟩
      intro refused hrefused
      rw [layOutAll_eq_error_iff.mpr hrefused] at hlines
      cases hlines
  · intro l hl
    rcases htotal with ⟨lines, hread⟩ | ⟨lines, unreadable, hstops⟩
    · exact ⟨lines, hread, emitAll_of_mapM hread.mapM_eq⟩
    · rw [hstops.layOutAll_eq] at hl
      obtain ⟨-, -, hl⟩ := bind_eq_ok.mp hl
      cases hl

end TurtleVM.Assembly
