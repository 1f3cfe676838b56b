import Mathlib.Data.List.Induction
import TurtleVM.Proofs.LayoutSteps

/-! # Layouts after refused lines

Laying out can go on after a line has been refused, with whatever the line has left behind: labels
in front of the refused part stay bound, and a side that is set a second time takes the new length.

`Leaves` says all that a line can leave, taken or refused. What follows for any lines is
`layout_stays_sound`: the code is that of the lines taken, the table of labels stays in order and
within its bounds, no side is zero, and a bound name never moves.
-/

namespace TurtleVM.Assembly.Layout

variable {l l' : Layout} {line : Line} {lines later : List Line} {name : String}
variable {offset : UInt16} {capacity : Nat}

/-! ### Any lines -/

/-- The layout after lines, each of them taken or refused. -/
def after : List Line → Layout → Layout
  | [], l => l
  | line :: lines, l => after lines (l.addLine line).2

/-- The lines that are taken. -/
def taken : List Line → Layout → List Line
  | [], _ => []
  | line :: lines, l =>
    match l.addLine line with
    | (.ok (), l) => line :: taken lines l
    | (.error _, l) => taken lines l

theorem after_append (lines later : List Line) (l : Layout) :
    l.after (lines ++ later) = (l.after lines).after later := by
  induction lines generalizing l with
  | nil => rfl
  | cons line lines ih => exact ih (l.addLine line).2

theorem taken_cons_of_ok (h : (l.addLine line).1 = .ok ()) :
    l.taken (line :: lines) = line :: (l.addLine line).2.taken lines := by
  rcases hadd : l.addLine line with ⟨_ | _, l₁⟩
  · rw [hadd] at h
    cases h
  · simp only [taken, hadd]

theorem taken_cons_of_error {error : Error} (h : (l.addLine line).1 = .error error) :
    l.taken (line :: lines) = (l.addLine line).2.taken lines := by
  rcases hadd : l.addLine line with ⟨_ | _, l₁⟩
  · simp only [taken, hadd]
  · rw [hadd] at h
    cases h

/-! ### One line -/

/-- Binding names binds a first part of them. -/
theorem exists_bindAll_eq_ok (names : List String) (l : Layout) :
    ∃ bound, bound <+: names ∧ l.bindAll bound = (.ok (), (l.bindAll names).2) := by
  induction names generalizing l with
  | nil => exact ⟨[], List.prefix_rfl, rfl⟩
  | cons name names ih =>
    cases hbind : l.bind name with
    | error cause =>
      refine ⟨[], List.nil_prefix, ?_⟩
      simp only [bindAll, hbind]
    | ok l₁ =>
      obtain ⟨bound, hbound, hall⟩ := ih l₁
      refine ⟨name :: bound, (List.prefix_cons_inj name).mpr hbound, ?_⟩
      simp only [bindAll, hbind, hall]

/-- A refused statement does not make the code longer. -/
theorem codeLength_addStatement_of_error {s : Statement} {cause : Cause}
    (h : (l.addStatement s).1 = .error cause) : (l.addStatement s).2.codeLength = l.codeLength := by
  cases s with
  | instruction i =>
    simp only [addStatement] at h ⊢
    split at h
    · cases h
    · rfl
  | side s length => exact codeLength_withSide s length l

/-- A statement binds no names. -/
theorem addStatement_labels (s : Statement) (l : Layout) :
    (l.addStatement s).2.capacity = l.capacity ∧ (l.addStatement s).2.labels = l.labels := by
  cases s with
  | instruction i =>
    simp only [addStatement, extend]
    split
    · rename_i h
      split at h
      · cases h
        exact ⟨rfl, rfl⟩
      · cases h
    · exact ⟨rfl, rfl⟩
  | side s length => exact ⟨capacity_withSide s length l, labels_withSide s length l⟩

/-- What laying out a line leaves, with the outcome that tells whether the line is taken. -/
structure Leaves (l : Layout) (line : Line) (outcome : Except Cause Unit) (l' : Layout) : Prop where
  capacity : l'.capacity = l.capacity
  /-- Names are bound to the end of the code, up to the first that is refused. -/
  names : ∃ bound, bound <+: line.labels ∧ l'.labels = (l.withNames bound).labels ∧
    (∀ name ∈ bound, name.utf8ByteSize ≤ 32) ∧ (l.boundNames ++ bound).Nodup ∧
      l.boundNames.length + bound.length ≤ l.capacity
  length_of_ok : outcome = .ok () → l'.codeLength = l.codeLength + codeWidth [line]
  length_of_error : ∀ cause, outcome = .error cause → l'.codeLength = l.codeLength
  /-- Either no side is set, or the one that the line states, set before or not. -/
  sides : (∀ s, l'.side? s = l.side? s) ∨ ∀ s, l'.side? s = (line.sideLength? s).or (l.side? s)

/-- What laying out a draft leaves, when it is the draft of the line. -/
theorem addDraft_leaves {draft : Option Draft} (hdraft : line.draft? = .ok draft) (l : Layout) :
    (l.addDraft draft).2.capacity = l.capacity ∧ (l.addDraft draft).2.labels = l.labels ∧
      (∀ cause, (l.addDraft draft).1 = .error cause →
        (l.addDraft draft).2.codeLength = l.codeLength) ∧
      ∀ s, (l.addDraft draft).2.side? s = (line.sideLength? s).or (l.side? s) := by
  simp only [Line.sideLength?_of_draft? hdraft]
  match draft with
  | none => exact ⟨rfl, rfl, fun _ _ => rfl, fun _ => rfl⟩
  | some d =>
    obtain ⟨hcapacity, hlabels⟩ := addStatement_labels (d.statement fun _ => 0) l
    refine ⟨hcapacity, hlabels, fun _ => codeLength_addStatement_of_error, ?_⟩
    intro s
    match d with
    | .command c =>
      -- An instruction sets no side, whether it makes the code longer or not.
      simp only [addDraft, Draft.statement, addStatement, extend]
      split
      · rename_i h
        split at h <;> cases h
        cases s <;> rfl
      · rfl
    | .side t length nonzero =>
      show (l.withSide t length).side? s = _
      rw [side?_withSide]
      show _ = (if t = s then some length else none).or (l.side? s)
      split <;> rfl

/-- What laying out a line leaves, taken or refused. -/
theorem layOut_leaves (hdistinct : l.boundNames.Nodup) (hfit : l.boundNames.length ≤ l.capacity)
    (line : Line) : l.Leaves line (l.layOut line).1 (l.layOut line).2 := by
  obtain ⟨bound, hfront, hbound⟩ := exists_bindAll_eq_ok line.labels l
  obtain ⟨hshort, hnodup, hroom, hleft⟩ := (bindAll_eq_ok_iff hdistinct hfit).mp hbound
  have hnames : ∃ bound', bound' <+: line.labels ∧
      (l.withNames bound).labels = (l.withNames bound').labels ∧
        (∀ name ∈ bound', name.utf8ByteSize ≤ 32) ∧ (l.boundNames ++ bound').Nodup ∧
          l.boundNames.length + bound'.length ≤ l.capacity :=
    ⟨bound, hfront, rfl, hshort, hnodup, hroom⟩
  -- Refused before its statement is laid out, a line has bound names and nothing else.
  have hrefused (cause : Cause) (h : l.layOut line = (.error cause, l.withNames bound)) :
      l.Leaves line (l.layOut line).1 (l.layOut line).2 := by
    rw [h]
    refine ⟨rfl, hnames, nofun, fun _ _ => rfl, .inl ?_⟩
    intro s
    exact side?_withNames bound s l
  rcases hall : l.bindAll line.labels with ⟨cause | ⟨⟩, l₁⟩
  · rw [hall] at hleft
    apply hrefused cause
    rw [layOut_eq, hall, ← hleft]
  · rw [hall] at hleft
    match hdraft : line.draft? with
    | .error cause =>
      apply hrefused cause
      rw [layOut_eq, hall, hdraft, ← hleft]
    | .ok draft =>
      have hlayOut : l.layOut line = (l.withNames bound).addDraft draft := by
        rw [layOut_eq, hall, hdraft, ← hleft]
      obtain ⟨hcapacity, hlabels, hlength, hsides⟩ := addDraft_leaves hdraft (l.withNames bound)
      rw [← hlayOut] at hcapacity hlabels hlength hsides
      refine ⟨hcapacity, ?_, ?_, hlength, .inr ?_⟩
      · rwa [hlabels]
      · intro hok
        exact ((layOut_eq_ok_iff hdistinct hfit).mp (Prod.ext hok rfl)).2.codeLength
      · intro s
        rw [hsides, side?_withNames]

/-! ### What every line keeps -/

/-- The end of the code is an offset. -/
theorem toNat_ofNat_codeLength (l : Layout) : (UInt16.ofNat l.codeLength).toNat = l.codeLength := by
  have hle : l.codeLength ≤ 65535 := l.codeLength_le
  rw [UInt16.toNat_ofNat']
  omega

/-- What is true of a layout whatever lines have been taken and refused. -/
structure Sound (l : Layout) : Prop where
  names_short : ∀ name ∈ l.boundNames, name.utf8ByteSize ≤ 32
  names_distinct : l.boundNames.Nodup
  names_fit : l.boundNames.length ≤ l.capacity
  offsets_le : ∀ label ∈ l.labels, label.offset.toNat ≤ l.codeLength
  offsets_ordered : l.labels.Pairwise fun a b => a.offset.toNat ≤ b.offset.toNat
  sides_nonzero : ∀ s length, l.side? s = some length → length ≠ 0

theorem sound_empty (capacity : Nat) : (Layout.empty capacity).Sound where
  names_short _ h := nomatch h
  names_distinct := List.nodup_nil
  names_fit := Nat.zero_le capacity
  offsets_le _ h := nomatch h
  offsets_ordered := List.Pairwise.nil
  sides_nonzero s _ h := by cases s <;> cases h

theorem Leaves.le_codeLength {outcome : Except Cause Unit} (h : l.Leaves line outcome l') :
    l.codeLength ≤ l'.codeLength := by
  match outcome with
  | .ok () =>
    rw [h.length_of_ok rfl]
    exact Nat.le_add_right _ _
  | .error cause => exact Nat.le_of_eq (h.length_of_error cause rfl).symm

/-- A line leaves a sound layout sound. -/
theorem Leaves.sound {outcome : Except Cause Unit} (h : l.Leaves line outcome l') (hl : l.Sound) :
    l'.Sound := by
  obtain ⟨bound, -, hlabels, hshort, hnodup, hroom⟩ := h.names
  have hnames : l'.boundNames = l.boundNames ++ bound := by
    rw [boundNames, hlabels]
    exact boundNames_withNames bound l
  have hgrows := h.le_codeLength
  -- New labels stand at the end of the code, behind all others.
  have hnew : ∀ label ∈ bound.map fun name => (⟨name, UInt16.ofNat l.codeLength⟩ : Label),
      label.offset.toNat = l.codeLength := by
    intro label hlabel
    obtain ⟨name, -, rfl⟩ := List.mem_map.mp hlabel
    exact l.toNat_ofNat_codeLength
  have hlabels' : l'.labels = l.labels ++
      bound.map fun name => (⟨name, UInt16.ofNat l.codeLength⟩ : Label) := hlabels
  refine ⟨?_, ?_, ?_, ?_, ?_, ?_⟩
  · intro name hname
    rw [hnames, List.mem_append] at hname
    rcases hname with hname | hname
    · exact hl.names_short name hname
    · exact hshort name hname
  · rwa [hnames]
  · rwa [hnames, List.length_append, h.capacity]
  · intro label hlabel
    rw [hlabels', List.mem_append] at hlabel
    rcases hlabel with hlabel | hlabel
    · exact Nat.le_trans (hl.offsets_le label hlabel) hgrows
    · rwa [hnew label hlabel]
  · rw [hlabels', List.pairwise_append]
    refine ⟨hl.offsets_ordered, ?_, ?_⟩
    · apply List.pairwise_of_forall_mem_list
      intro a ha b hb
      exact Nat.le_of_eq ((hnew a ha).trans (hnew b hb).symm)
    · intro a ha b hb
      rw [hnew b hb]
      exact hl.offsets_le a ha
  · intro s length hlength
    rcases h.sides with hsides | hsides
    · rw [hsides] at hlength
      exact hl.sides_nonzero s length hlength
    · rw [hsides, Option.or_eq_some_iff] at hlength
      rcases hlength with hstated | ⟨-, hset⟩
      · obtain ⟨nonzero, -⟩ := Line.sideLength?_eq_some_iff.mp hstated
        exact nonzero
      · exact hl.sides_nonzero s length hset

/-- What laying out one more line leaves, with the error that tells of a refusal. -/
theorem Sound.addLine_leaves (hl : l.Sound) (line : Line) :
    ∃ outcome, (l.addLine line).1 = outcome.mapError (Error.onLine line.number) ∧
      l.Leaves line outcome (l.addLine line).2 :=
  ⟨_, rfl, layOut_leaves hl.names_distinct hl.names_fit line⟩

theorem Sound.addLine (hl : l.Sound) (line : Line) : (l.addLine line).2.Sound := by
  obtain ⟨outcome, -, hleaves⟩ := hl.addLine_leaves line
  exact hleaves.sound hl

theorem Sound.after (hl : l.Sound) (lines : List Line) : (l.after lines).Sound := by
  induction lines generalizing l with
  | nil => exact hl
  | cons line lines ih => exact ih (hl.addLine line)

/-- A table has the same room after any lines. -/
theorem Sound.capacity_after (hl : l.Sound) (lines : List Line) :
    (l.after lines).capacity = l.capacity := by
  induction lines generalizing l with
  | nil => rfl
  | cons line lines ih =>
    obtain ⟨outcome, -, hleaves⟩ := hl.addLine_leaves line
    exact (ih (hl.addLine line)).trans hleaves.capacity

/-- Each side of the canvas, set or not, has a length between 1 and 65535. -/
theorem Sound.side_bounds (hl : l.Sound) (s : Side) :
    1 ≤ ((l.side? s).getD 512).toNat ∧ ((l.side? s).getD 512).toNat ≤ 65535 := by
  refine ⟨?_, Nat.le_of_lt_succ (UInt16.toNat_lt _)⟩
  match hside : l.side? s with
  | none => decide
  | some length =>
    have hne := hl.sides_nonzero s length hside
    rw [ne_eq, ← UInt16.toNat_inj] at hne
    exact Nat.one_le_iff_ne_zero.mpr hne

/-! ### The length of the code -/

/-- The code is that of the lines taken. -/
theorem Sound.codeLength_after (hl : l.Sound) (lines : List Line) :
    (l.after lines).codeLength = l.codeLength + codeWidth (l.taken lines) := by
  induction lines generalizing l with
  | nil => rfl
  | cons line lines ih =>
    obtain ⟨outcome, houtcome, hleaves⟩ := hl.addLine_leaves line
    show ((l.addLine line).2.after lines).codeLength = _
    rw [ih (hl.addLine line)]
    match outcome with
    | .ok () =>
      have hwidth : codeWidth (line :: (l.addLine line).2.taken lines) =
          codeWidth [line] + codeWidth ((l.addLine line).2.taken lines) :=
        codeWidth_append [line] _
      rw [taken_cons_of_ok houtcome, hleaves.length_of_ok rfl, hwidth, Nat.add_assoc]
    | .error cause =>
      rw [taken_cons_of_error houtcome, hleaves.length_of_error cause rfl]

/-! ### Bound names -/

/-- More labels do not move a bound name. -/
theorem label?_of_append {labels : List Label} (h : l'.labels = l.labels ++ labels)
    (hname : l.label? name = some offset) : l'.label? name = some offset := by
  obtain ⟨label, hfind, hoffset⟩ := Option.map_eq_some_iff.mp hname
  unfold label? offsetOf?
  rw [h, List.find?_append, hfind, Option.some_or, Option.map_some, hoffset]

/-- A line leaves bound names where they are. -/
theorem Leaves.label? {outcome : Except Cause Unit} (h : l.Leaves line outcome l')
    (hname : l.label? name = some offset) : l'.label? name = some offset := by
  obtain ⟨bound, -, hlabels, -⟩ := h.names
  exact label?_of_append hlabels hname

/-- A name that a line newly binds is one of its labels, bound to the end of the code before it. -/
theorem Leaves.of_new_label {outcome : Except Cause Unit} (h : l.Leaves line outcome l')
    (hnone : l.label? name = none) (hname : l'.label? name = some offset) :
    name ∈ line.labels ∧ offset.toNat = l.codeLength := by
  obtain ⟨bound, hfront, hlabels, -⟩ := h.names
  have hlabels' : l'.labels = l.labels ++
      bound.map fun name => (⟨name, UInt16.ofNat l.codeLength⟩ : Label) := hlabels
  have hnot : l.labels.find? (fun label => label.name == name) = none :=
    Option.map_eq_none_iff.mp hnone
  obtain ⟨label, hfind, rfl⟩ := Option.map_eq_some_iff.mp hname
  rw [hlabels', List.find?_append, hnot, Option.none_or] at hfind
  obtain ⟨name', hbound, rfl⟩ := List.mem_map.mp (List.mem_of_find?_eq_some hfind)
  obtain rfl : name' = name := by simpa using List.find?_some hfind
  exact ⟨hfront.subset hbound, l.toNat_ofNat_codeLength⟩

/-- However laying out goes on, a bound name stays where it is. -/
theorem Sound.label?_after (hl : l.Sound) (hname : l.label? name = some offset)
    (later : List Line) : (l.after later).label? name = some offset := by
  induction later generalizing l with
  | nil => exact hname
  | cons line later ih =>
    obtain ⟨outcome, -, hleaves⟩ := hl.addLine_leaves line
    exact ih (hl.addLine line) (hleaves.label? hname)

/-- A bound name was bound by a first line, to the end of the code before it. -/
theorem exists_first_binding (h : ((Layout.empty capacity).after lines).label? name = some offset) :
    ∃ done line rest, lines = done ++ line :: rest ∧
      ((Layout.empty capacity).after done).label? name = none ∧ name ∈ line.labels ∧
      ((Layout.empty capacity).after (done ++ [line])).label? name = some offset ∧
      offset.toNat = ((Layout.empty capacity).after done).codeLength := by
  -- Induction on the lines from the last: either it binds the name or a line before it does.
  induction lines using List.reverseRecOn with
  | nil => cases h
  | append_singleton lines line ih =>
    have hsound := (sound_empty capacity).after lines
    obtain ⟨outcome, -, hleaves⟩ := hsound.addLine_leaves line
    match hbefore : ((Layout.empty capacity).after lines).label? name with
    | some offset' =>
      have hafter := hsound.label?_after hbefore [line]
      rw [← after_append, h] at hafter
      obtain ⟨done, first, rest, hlines, hrest⟩ := ih (hbefore.trans hafter.symm)
      refine ⟨done, first, rest ++ [line], ?_, hrest⟩
      rw [hlines, List.append_assoc, List.cons_append]
    | none =>
      have hstep := h
      rw [after_append] at hstep
      obtain ⟨hlabel, hoffset⟩ := hleaves.of_new_label hbefore hstep
      exact ⟨lines, line, [], rfl, hbefore, hlabel, h, hoffset⟩

/-! ### Any lines at all -/

/-- **Laying out lines, some of which are refused.** The code is that of the lines taken and no
longer than 65535 bytes. The table has room for its labels; their names are distinct and have at
most 32 bytes, and their offsets are in order and inside the code. Both sides of the canvas are
between 1 and 65535. A name that is bound stays bound to its offset, which is the end of the code
before the first line that bound it. -/
theorem layout_stays_sound (capacity : Nat) (lines : List Line) :
    let l := (Layout.empty capacity).after lines
    l.codeLength = codeWidth ((Layout.empty capacity).taken lines) ∧ l.codeLength ≤ 65535 ∧
    l.labels.length ≤ capacity ∧ (l.labels.map Label.name).Nodup ∧
    (∀ label ∈ l.labels, label.name.utf8ByteSize ≤ 32 ∧ label.offset.toNat ≤ l.codeLength) ∧
    (l.labels.Pairwise fun a b => a.offset.toNat ≤ b.offset.toNat) ∧
    (1 ≤ l.size.width.toNat ∧ l.size.width.toNat ≤ 65535) ∧
    (1 ≤ l.size.height.toNat ∧ l.size.height.toNat ≤ 65535) ∧
    ∀ name offset, l.label? name = some offset →
      (∀ later, (l.after later).label? name = some offset) ∧
      ∃ done line rest, lines = done ++ line :: rest ∧
        ((Layout.empty capacity).after done).label? name = none ∧ name ∈ line.labels ∧
        ((Layout.empty capacity).after (done ++ [line])).label? name = some offset ∧
        offset.toNat = ((Layout.empty capacity).after done).codeLength := by
  intro l
  have hl : l.Sound := (sound_empty capacity).after lines
  have hlength : l.codeLength = codeWidth ((Layout.empty capacity).taken lines) := by
    rw [(sound_empty capacity).codeLength_after lines]
    exact Nat.zero_add _
  have hfit : l.labels.length ≤ capacity := by
    have hnames := hl.names_fit
    rwa [length_boundNames, (sound_empty capacity).capacity_after lines] at hnames
  refine ⟨hlength, l.codeLength_le, hfit, hl.names_distinct, ?_, hl.offsets_ordered, ?_, ?_, ?_⟩
  · intro label hlabel
    exact ⟨hl.names_short _ (List.mem_map_of_mem hlabel), hl.offsets_le label hlabel⟩
  · exact hl.side_bounds .width
  · exact hl.side_bounds .height
  · intro name offset hname
    exact ⟨hl.label?_after hname, exists_first_binding hname⟩

end TurtleVM.Assembly.Layout
