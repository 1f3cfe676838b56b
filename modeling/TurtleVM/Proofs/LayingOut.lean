import TurtleVM.Assembly
import TurtleVM.Proofs.LayoutSteps

/-! # Laying out a program

Lines can be laid out exactly if they fulfil `LaysOut`, and the layout that results holds just what
they define: `layOutAll_eq_ok_iff`. The table then gives the offset of every defined name and of no
other, `offsetOf?_labelTable`.
-/

namespace TurtleVM.Assembly

/-! ### What can be laid out -/

/-- What lines must be to be laid out with room for `capacity` names. -/
structure LaysOut (capacity : Nat) (lines : List Line) : Prop where
  /-- A line with a mnemonic word has a mnemonic and operands of one of its shapes. -/
  statements : ∀ line ∈ lines, ∀ word operands, line.Reads word operands → ∃ d, line.States d
  names_short : ∀ name ∈ definedNames lines, name.utf8ByteSize ≤ 32
  names_distinct : (definedNames lines).Nodup
  names_fit : (definedNames lines).length ≤ capacity
  sides_once : ∀ s, (sideLengths s lines).length ≤ 1
  code_short : codeWidth lines ≤ 65535

/-- Every defined name with its offset. -/
def labelTable (lines : List Line) : List Label :=
  (definedNames lines).map fun name => ⟨name, offsetWord lines name⟩

/-- A layout holds just what lines define. -/
structure Layout.Describes (l : Layout) (capacity : Nat) (lines : List Line) : Prop where
  capacity : l.capacity = capacity
  labels : l.labels = labelTable lines
  codeLength : l.codeLength = codeWidth lines
  sides : ∀ s, l.side? s = (sideLengths s lines).head?

variable {capacity : Nat} {done rest lines : List Line} {line : Line} {l l' : Layout}

theorem LaysOut.of_append (h : LaysOut capacity (done ++ rest)) : LaysOut capacity done where
  statements line hline := h.statements line (List.mem_append_left _ hline)
  names_short name hname := h.names_short name (by simp [hname])
  names_distinct := by
    have hdistinct := h.names_distinct
    rw [definedNames_append] at hdistinct
    exact (List.nodup_append.mp hdistinct).1
  names_fit := by
    have hfit := h.names_fit
    rw [definedNames_append, List.length_append] at hfit
    omega
  sides_once s := by
    have honce := h.sides_once s
    rw [sideLengths_append, List.length_append] at honce
    omega
  code_short := by
    have hshort := h.code_short
    rw [codeWidth_append] at hshort
    omega

/-! ### The table of names -/

/-- The new names of a line are bound to the end of the code so far. -/
theorem labelTable_append_singleton (h : (definedNames (done ++ [line])).Nodup) :
    labelTable (done ++ [line]) = labelTable done ++
      line.labels.map fun name => ⟨name, UInt16.ofNat (codeWidth done)⟩ := by
  rw [definedNames_append, definedNames_singleton] at h
  obtain ⟨-, -, hnew⟩ := List.nodup_append.mp h
  unfold labelTable
  rw [definedNames_append, definedNames_singleton, List.map_append]
  congr 1
  · -- Names that were defined before stay where they are.
    refine List.map_congr_left fun name hname => ?_
    rw [offsetWord, labelOffset, linesBefore_append_of_mem _ _ _ hname]
    rfl
  · -- New names stand behind all lines so far.
    refine List.map_congr_left fun name hname => ?_
    have hnot : name ∉ definedNames done := fun hmem => hnew name hmem name hname rfl
    rw [offsetWord, labelOffset, linesBefore_append_of_not_mem _ _ hnot hname]

/-- The table gives the offset of every defined name and of no other. -/
theorem offsetOf?_labelTable (lines : List Line) (name : String) :
    offsetOf? (labelTable lines) name =
      if name ∈ definedNames lines then some (offsetWord lines name) else none := by
  unfold offsetOf? labelTable
  rw [List.find?_map]
  cases hfind : (definedNames lines).find? ((fun label : Label => label.name == name) ∘
      fun name => ⟨name, offsetWord lines name⟩) with
  | some found =>
    -- Only the name itself is found under the name.
    obtain rfl : found = name := by simpa using List.find?_some hfind
    rw [if_pos (List.mem_of_find?_eq_some hfind)]
    rfl
  | none =>
    have hnot : name ∉ definedNames lines := fun hmem => by
      simpa using List.find?_eq_none.mp hfind name hmem
    rw [if_neg hnot]
    rfl

/-! ### One more line -/

theorem Layout.Describes.boundNames (hl : l.Describes capacity lines) :
    l.boundNames = definedNames lines := by
  simp [Layout.boundNames, hl.labels, labelTable, Function.comp_def]

theorem Layout.Describes.size (hl : l.Describes capacity lines) : l.size = canvasSize lines := by
  have hwidth : l.width = (sideLengths .width lines).head? := hl.sides .width
  have hheight : l.height = (sideLengths .height lines).head? := hl.sides .height
  rw [Layout.size, hwidth, hheight]
  rfl

/-- A side stays set at most once exactly if a line does not set it again. -/
theorem length_sideLengths_append_le_iff {s : Side} (honce : (sideLengths s done).length ≤ 1) :
    (sideLengths s (done ++ [line])).length ≤ 1 ↔
      (sideLengths s [line] ≠ [] → (sideLengths s done).head? = none) := by
  rw [sideLengths_append, List.length_append, List.head?_eq_none_iff, ← List.length_eq_zero_iff]
  have hline : (sideLengths s [line]).length ≤ 1 := by
    rw [sideLengths_singleton]
    cases line.sideLength? s <;> simp
  rw [ne_eq, ← List.length_eq_zero_iff]
  omega

/-- A line can be added to a layout exactly if it can be added to the lines. -/
theorem Layout.Describes.accepts_iff (hl : l.Describes capacity done) (hd : LaysOut capacity done) :
    l.Accepts line ↔ LaysOut capacity (done ++ [line]) := by
  constructor
  · intro ⟨hstatement, hshort, hdistinct, hfit, hunset, hcode⟩
    rw [hl.boundNames] at hdistinct hfit
    rw [hl.capacity] at hfit
    rw [hl.codeLength] at hcode
    refine ⟨fun line' hline' => ?_, fun name hname => ?_, ?_, ?_, fun s => ?_, ?_⟩
    · rcases List.mem_append.mp hline' with hline' | hline'
      · exact hd.statements line' hline'
      · rw [List.mem_singleton.mp hline']
        exact Line.exists_draft?_iff.mp hstatement
    · rw [definedNames_append, definedNames_singleton, List.mem_append] at hname
      rcases hname with hname | hname
      · exact hd.names_short name hname
      · exact hshort name hname
    · rwa [definedNames_append, definedNames_singleton]
    · rwa [definedNames_append, definedNames_singleton, List.length_append]
    · rw [length_sideLengths_append_le_iff (hd.sides_once s), ← hl.sides]
      exact hunset s
    · rwa [codeWidth_append]
  · intro h
    -- What holds of all the lines holds of the last of them, given those before.
    have hdistinct := h.names_distinct
    have hfit := h.names_fit
    have hcode := h.code_short
    rw [definedNames_append, definedNames_singleton] at hdistinct hfit
    rw [List.length_append] at hfit
    rw [codeWidth_append] at hcode
    refine ⟨?_, fun name hname => ?_, ?_, ?_, fun s => ?_, ?_⟩
    · exact Line.exists_draft?_iff.mpr (h.statements line (by simp))
    · exact h.names_short name (by simp [hname])
    · rwa [hl.boundNames]
    · rwa [hl.boundNames, hl.capacity]
    · rw [hl.sides, ← length_sideLengths_append_le_iff (hd.sides_once s)]
      exact h.sides_once s
    · rwa [hl.codeLength]

/-- What a line adds to a layout is what it adds to the lines. -/
theorem Layout.Describes.extends_iff (hl : l.Describes capacity done)
    (hd : LaysOut capacity (done ++ [line])) :
    l'.Extends l line ↔ l'.Describes capacity (done ++ [line]) := by
  have hlabels : (l.withNames line.labels).labels = labelTable (done ++ [line]) := by
    rw [labelTable_append_singleton hd.names_distinct, ← hl.labels, ← hl.codeLength]
    rfl
  have hsides (s : Side) : (l.side? s).or (sideLengths s [line]).head? =
      (sideLengths s (done ++ [line])).head? := by
    rw [hl.sides, sideLengths_append, List.head?_append]
  constructor
  · intro ⟨hcapacity, hlabels', hlength, hsides'⟩
    refine ⟨hcapacity.trans hl.capacity, hlabels'.trans hlabels, ?_, fun s => ?_⟩
    · rw [hlength, hl.codeLength, codeWidth_append]
    · rw [hsides', hsides]
  · intro ⟨hcapacity, hlabels', hlength, hsides'⟩
    refine ⟨hcapacity.trans hl.capacity.symm, hlabels'.trans hlabels.symm, ?_, fun s => ?_⟩
    · rw [hlength, hl.codeLength, codeWidth_append]
    · rw [hsides', hsides]

/-- One more line: from the layout of some lines to the layout of these and the line. -/
theorem addLine_eq_ok_iff_laysOut (hd : LaysOut capacity done) (hl : l.Describes capacity done) :
    l.addLine line = (.ok (), l') ↔
      LaysOut capacity (done ++ [line]) ∧ l'.Describes capacity (done ++ [line]) := by
  have hdistinct : l.boundNames.Nodup := hl.boundNames ▸ hd.names_distinct
  have hfit : l.boundNames.length ≤ l.capacity := by
    rw [hl.boundNames, hl.capacity]
    exact hd.names_fit
  rw [Layout.addLine_eq_ok_iff, Layout.layOut_eq_ok_iff hdistinct hfit, hl.accepts_iff hd]
  constructor
  · intro ⟨h, hextends⟩
    exact ⟨h, (hl.extends_iff h).mp hextends⟩
  · intro ⟨h, hdescribes⟩
    exact ⟨h, (hl.extends_iff h).mpr hdescribes⟩

/-! ### All lines -/

theorem laysOut_nil : LaysOut capacity [] where
  statements _ hline := nomatch hline
  names_short _ hname := nomatch hname
  names_distinct := List.nodup_nil
  names_fit := Nat.zero_le capacity
  sides_once _ := Nat.zero_le 1
  code_short := Nat.zero_le 65535

theorem Layout.describes_empty (capacity : Nat) :
    (Layout.empty capacity).Describes capacity [] where
  capacity := rfl
  labels := rfl
  codeLength := rfl
  sides s := by cases s <;> rfl

/-- Only one layout holds just what lines define. -/
theorem Layout.Describes.unique (hl : l.Describes capacity lines)
    (hl' : l'.Describes capacity lines) : l' = l :=
  Layout.eq_of_fields (hl'.capacity.trans hl.capacity.symm) (hl'.labels.trans hl.labels.symm)
    (hl'.codeLength.trans hl.codeLength.symm) fun s => (hl'.sides s).trans (hl.sides s).symm

theorem LaysOut.exists_describes (h : LaysOut capacity lines) :
    ∃ l : Layout, l.Describes capacity lines :=
  ⟨⟨capacity, labelTable lines, codeWidth lines, (sideLengths .width lines).head?,
    (sideLengths .height lines).head?, h.code_short⟩, rfl, rfl, rfl, fun s => by cases s <;> rfl⟩

/-- From a layout of the lines so far, laying out the rest. -/
theorem layOutAll_eq_ok_iff_of_describes (hd : LaysOut capacity done)
    (hl : l.Describes capacity done) :
    layOutAll .ok rest l = .ok l' ↔
      LaysOut capacity (done ++ rest) ∧ l'.Describes capacity (done ++ rest) := by
  -- Induction on the lines to come; the layout describes the lines that are done.
  induction rest generalizing done l with
  | nil =>
    rw [layOutAll, List.append_nil, Except.ok.injEq]
    constructor
    · intro h
      subst h
      exact ⟨hd, hl⟩
    · intro ⟨_, hl'⟩
      exact (hl.unique hl').symm
  | cons line rest ih =>
    simp only [layOutAll]
    rw [List.append_cons]
    rcases hadd : l.addLine line with ⟨e | ⟨⟩, l₁⟩
    · simp only [reduceCtorEq, false_iff, not_and]
      intro hall _
      -- The line belongs to lines that can be laid out, so it cannot be refused.
      have hline := hall.of_append
      obtain ⟨l₂, hl₂⟩ := hline.exists_describes
      rw [(addLine_eq_ok_iff_laysOut hd hl).mpr ⟨hline, hl₂⟩] at hadd
      cases hadd
    · obtain ⟨hd₁, hl₁⟩ := (addLine_eq_ok_iff_laysOut hd hl).mp hadd
      exact ih hd₁ hl₁

/-- **Laying out.** Lines are laid out exactly if they fulfil `LaysOut`, and the layout holds just
what they define. -/
theorem layOutAll_eq_ok_iff :
    layOutAll .ok lines (.empty capacity) = .ok l ↔
      LaysOut capacity lines ∧ l.Describes capacity lines :=
  layOutAll_eq_ok_iff_of_describes laysOut_nil (Layout.describes_empty capacity)

end TurtleVM.Assembly
