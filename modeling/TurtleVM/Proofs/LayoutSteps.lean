import TurtleVM.Assembly.Layout
import TurtleVM.Proofs.SourceProgram

/-! # Laying out a line

A layout takes a line exactly if it `Accepts` the line, and the layout it leaves then `Extends` it:
`layOut_eq_ok_iff`. Behind it stands one statement for each thing a line can do — bind names, make
the code longer, set a side — with all that is checked and all that changes.
-/

namespace TurtleVM.Assembly

namespace Layout

variable {l l' : Layout} {name : String} {names : List String} {line : Line}

/-- A layout is what it tells of its labels, its code and its sides. -/
theorem eq_of_fields (hcapacity : l'.capacity = l.capacity) (hlabels : l'.labels = l.labels)
    (hlength : l'.codeLength = l.codeLength) (hsides : ∀ s, l'.side? s = l.side? s) : l' = l := by
  have hwidth : l'.width = l.width := hsides .width
  have hheight : l'.height = l.height := hsides .height
  cases l
  cases l'
  simp_all

/-! ### Binding names -/

theorem shortName_of_le (h : name.utf8ByteSize ≤ 32) : shortName name = .ok name := if_pos h

theorem shortName_of_lt (h : 32 < name.utf8ByteSize) : shortName name = .error .nameTooLong :=
  if_neg (Nat.not_le.mpr h)

/-- The names in the table. -/
def boundNames (l : Layout) : List String := l.labels.map Label.name

/-- The layout with more names bound to the end of its code. -/
def withNames (names : List String) (l : Layout) : Layout :=
  { l with labels := l.labels ++ names.map fun name => ⟨name, UInt16.ofNat l.codeLength⟩ }

@[simp] theorem boundNames_withNames (names : List String) (l : Layout) :
    (l.withNames names).boundNames = l.boundNames ++ names := by
  simp [withNames, boundNames, Function.comp_def]

@[simp] theorem length_boundNames (l : Layout) : l.boundNames.length = l.labels.length :=
  List.length_map _

@[simp] theorem capacity_withNames (names : List String) (l : Layout) :
    (l.withNames names).capacity = l.capacity := rfl

@[simp] theorem codeLength_withNames (names : List String) (l : Layout) :
    (l.withNames names).codeLength = l.codeLength := rfl

@[simp] theorem side?_withNames (names : List String) (s : Side) (l : Layout) :
    (l.withNames names).side? s = l.side? s := by
  cases s <;> rfl

@[simp] theorem withNames_nil (l : Layout) : l.withNames [] = l := by
  simp [withNames]

@[simp] theorem withNames_withNames (xs ys : List String) (l : Layout) :
    (l.withNames xs).withNames ys = l.withNames (xs ++ ys) := by
  simp [withNames]

theorem any_labels_eq_true_iff :
    (l.labels.any fun label => label.name == name) = true ↔ name ∈ l.boundNames := by
  simp [boundNames]

/-- What binding a name checks, in this order, and what it leaves. -/
theorem bind_eq (name : String) (l : Layout) : l.bind name =
    if 32 < name.utf8ByteSize then .error .nameTooLong
    else if name ∈ l.boundNames then .error (.repeatedLabel name)
    else if l.capacity ≤ l.boundNames.length then .error .labelTableFull
    else .ok (l.withNames [name]) := by
  by_cases hshort : name.utf8ByteSize ≤ 32
  · rw [if_neg (Nat.not_lt.mpr hshort), length_boundNames]
    simp only [Layout.bind, shortName_of_le hshort, any_labels_eq_true_iff, ok_bind, throw_bind]
    by_cases hbound : name ∈ l.boundNames
    · rw [if_pos hbound, if_pos hbound]
    · rw [if_neg hbound, if_neg hbound]
      rfl
  · have hlong := Nat.not_le.mp hshort
    rw [if_pos hlong]
    simp only [Layout.bind, shortName_of_lt hlong, error_bind]

theorem bind_eq_ok_iff : l.bind name = .ok l' ↔
    name.utf8ByteSize ≤ 32 ∧ name ∉ l.boundNames ∧ l.boundNames.length < l.capacity ∧
      l' = l.withNames [name] := by
  rw [bind_eq]
  grind

/-- Names are bound exactly if they are short, new and distinct, and fit the table. -/
theorem bindAll_eq_ok_iff (hdistinct : l.boundNames.Nodup)
    (hfit : l.boundNames.length ≤ l.capacity) :
    l.bindAll names = (.ok (), l') ↔
      (∀ name ∈ names, name.utf8ByteSize ≤ 32) ∧ (l.boundNames ++ names).Nodup ∧
        l.boundNames.length + names.length ≤ l.capacity ∧ l' = l.withNames names := by
  induction names generalizing l with
  | nil =>
    simp only [bindAll, Prod.mk.injEq, true_and, List.append_nil, hdistinct, List.length_nil,
      Nat.add_zero, hfit, withNames_nil, List.not_mem_nil, false_implies, implies_true]
    exact eq_comm
  | cons name names ih =>
    unfold bindAll
    cases hbind : l.bind name with
    | error cause =>
      simp only [Prod.mk.injEq, reduceCtorEq, false_and, false_iff]
      intro ⟨hshort, hnodup, hroom, _⟩
      -- Then the first name could be bound.
      have hnew : name ∉ l.boundNames := fun hmem =>
        (List.nodup_append.mp hnodup).2.2 name hmem name List.mem_cons_self rfl
      rw [List.length_cons] at hroom
      have hok := bind_eq_ok_iff.mpr ⟨hshort name List.mem_cons_self, hnew, by omega, rfl⟩
      rw [hbind] at hok
      cases hok
    | ok l₁ =>
      obtain ⟨hshort, hnew, hroom, rfl⟩ := bind_eq_ok_iff.mp hbind
      -- The table with the first name is fit for the others.
      have hdistinct₁ : (l.withNames [name]).boundNames.Nodup := by
        rw [boundNames_withNames]
        exact List.nodup_append.mpr ⟨hdistinct, by simp, by grind⟩
      have hfit₁ : (l.withNames [name]).boundNames.length ≤ (l.withNames [name]).capacity := by
        rw [boundNames_withNames, List.length_append, capacity_withNames]
        exact hroom
      have hcount : (l.boundNames ++ [name]).length + names.length =
          l.boundNames.length + (name :: names).length := by
        simp only [List.length_append, List.length_cons, List.length_nil]
        omega
      simp only [ih hdistinct₁ hfit₁, boundNames_withNames, hcount, List.append_assoc,
        List.singleton_append, capacity_withNames, withNames_withNames, List.forall_mem_cons,
        hshort, true_and]

/-! ### One line -/

/-- What a line must be for a layout to take it. -/
structure Accepts (l : Layout) (line : Line) : Prop where
  statement : ∃ draft, line.draft? = .ok draft
  names_short : ∀ name ∈ line.labels, name.utf8ByteSize ≤ 32
  names_distinct : (l.boundNames ++ line.labels).Nodup
  names_fit : l.boundNames.length + line.labels.length ≤ l.capacity
  side_unset : ∀ s, sideLengths s [line] ≠ [] → l.side? s = none
  code_short : l.codeLength + codeWidth [line] ≤ 65535

/-- What a line adds to a layout. -/
structure Extends (l' l : Layout) (line : Line) : Prop where
  capacity : l'.capacity = l.capacity
  labels : l'.labels = (l.withNames line.labels).labels
  codeLength : l'.codeLength = l.codeLength + codeWidth [line]
  sides : ∀ s, l'.side? s = (l.side? s).or (sideLengths s [line]).head?

/-- Lays out what a line states. -/
def addDraft : Option Draft → Layout → Except Cause Unit × Layout
  | none, l => (.ok (), l)
  | some d, l => l.addStatement (d.statement fun _ => 0)

/-- A line is laid out by binding its names and then laying out its draft. -/
theorem layOut_eq (line : Line) (l : Layout) : l.layOut line =
    match l.bindAll line.labels with
    | (.error cause, l) => (.error cause, l)
    | (.ok (), l) =>
      match line.draft? with
      | .error cause => (.error cause, l)
      | .ok draft => l.addDraft draft := by
  -- While lines are laid out every name is resolved to zero.
  have hresolve (d : Draft) : d.resolve anyOffset = .ok (d.statement fun _ => 0) :=
    d.resolve_ok fun _ => 0
  rcases hbind : l.bindAll line.labels with ⟨_ | _, l₁⟩
  · simp only [layOut, hbind]
  · simp only [layOut, hbind, Line.draft?]
    cases line.instruction? with
    | none => rfl
    | some instruction =>
      obtain ⟨word, operands⟩ := instruction
      simp only [Statement.ofWords_eq]
      cases Draft.ofWords word operands with
      | error cause => rfl
      | ok d =>
        simp only [ok_bind, hresolve]
        rfl

@[simp] theorem capacity_withSide (s : Side) (length : UInt16) (l : Layout) :
    (l.withSide s length).capacity = l.capacity := by
  cases s <;> rfl

@[simp] theorem labels_withSide (s : Side) (length : UInt16) (l : Layout) :
    (l.withSide s length).labels = l.labels := by
  cases s <;> rfl

@[simp] theorem codeLength_withSide (s : Side) (length : UInt16) (l : Layout) :
    (l.withSide s length).codeLength = l.codeLength := by
  cases s <;> rfl

@[simp] theorem side?_withSide (s t : Side) (length : UInt16) (l : Layout) :
    (l.withSide s length).side? t = if s = t then some length else l.side? t := by
  cases s <;> cases t <;> rfl

/-- A command is laid out exactly if the code stays short. -/
theorem addStatement_instruction_eq_ok_iff {i : Instruction} :
    l.addStatement (.instruction i) = (.ok (), l') ↔
      l.codeLength + i.width ≤ 65535 ∧ l'.capacity = l.capacity ∧ l'.labels = l.labels ∧
      l'.codeLength = l.codeLength + i.width ∧ ∀ s, l'.side? s = l.side? s := by
  have hmax : Image.maxCodeLength = 65535 := rfl
  unfold addStatement extend
  by_cases hshort : l.codeLength + i.width ≤ 65535
  · simp only [hmax, hshort, ↓reduceDIte, Prod.mk.injEq, true_and]
    constructor
    · intro h
      subst h
      exact ⟨rfl, rfl, rfl, fun s => by cases s <;> rfl⟩
    · intro ⟨hcapacity, hlabels, hlength, hsides⟩
      refine Eq.symm (eq_of_fields hcapacity hlabels hlength fun s => ?_)
      rw [hsides]
      cases s <;> rfl
  · simp [hmax, hshort]

/-- A directive is laid out exactly if its side is not set. -/
theorem addStatement_side_eq_ok_iff {s : Side} {length : UInt16} :
    l.addStatement (.side s length) = (.ok (), l') ↔
      l.side? s = none ∧ l'.capacity = l.capacity ∧ l'.labels = l.labels ∧
      l'.codeLength = l.codeLength ∧
      ∀ t, l'.side? t = if s = t then some length else l.side? t := by
  simp only [addStatement]
  cases l.side? s with
  | none =>
    simp only [Option.isSome_none, Bool.false_eq_true, ↓reduceIte, Prod.mk.injEq, true_and]
    constructor
    · intro h
      subst h
      exact ⟨capacity_withSide s length l, labels_withSide s length l,
        codeLength_withSide s length l, fun t => side?_withSide s t length l⟩
    · intro ⟨hcapacity, hlabels, hlength, hsides⟩
      refine Eq.symm (eq_of_fields ?_ ?_ ?_ fun t => ?_)
      · rw [hcapacity, capacity_withSide]
      · rw [hlabels, labels_withSide]
      · rw [hlength, codeLength_withSide]
      · rw [hsides, side?_withSide]
  | some length' => simp

/-- The draft of a line is laid out exactly if the code stays short and no side is set again. -/
theorem addDraft_eq_ok_iff {draft : Option Draft} (hdraft : line.draft? = .ok draft) :
    l.addDraft draft = (.ok (), l') ↔
      l.codeLength + codeWidth [line] ≤ 65535 ∧
      (∀ s, sideLengths s [line] ≠ [] → l.side? s = none) ∧
      l'.capacity = l.capacity ∧ l'.labels = l.labels ∧
      l'.codeLength = l.codeLength + codeWidth [line] ∧
      ∀ s, l'.side? s = (l.side? s).or (sideLengths s [line]).head? := by
  have hle : l.codeLength ≤ 65535 := l.codeLength_le
  have hcommand := Line.command?_of_draft? hdraft
  have hside := Line.sideLength?_of_draft? hdraft
  simp only [sideLengths_singleton, hside]
  rcases draft with _ | c | ⟨s, length, nonzero⟩
  · rw [codeWidth_of_no_command hcommand]
    simp only [addDraft, Option.bind_none, Option.toList_none, Nat.add_zero, hle, ne_eq,
      not_true_eq_false, false_implies, implies_true, List.head?_nil, Option.or_none,
      Prod.mk.injEq, true_and]
    constructor
    · intro h
      subst h
      exact ⟨rfl, rfl, rfl, fun s => rfl⟩
    · intro ⟨hcapacity, hlabels, hlength, hsides⟩
      exact (eq_of_fields hcapacity hlabels hlength hsides).symm
  · rw [codeWidth_of_command hcommand]
    simp only [addDraft, Draft.statement, addStatement_instruction_eq_ok_iff,
      Command.width_instruction, Option.bind_some, Draft.sideLength?, Option.toList_none, ne_eq,
      not_true_eq_false, false_implies, implies_true, List.head?_nil, Option.or_none, true_and]
  · rw [codeWidth_of_no_command hcommand]
    simp only [addDraft, Draft.statement, addStatement_side_eq_ok_iff, Option.bind_some,
      Draft.sideLength?, Nat.add_zero, hle, true_and]
    -- Only the side of the directive has to be unset.
    have hunset : (∀ t, (if s = t then some length else none).toList ≠ [] → l.side? t = none) ↔
        l.side? s = none := by
      constructor
      · intro h
        exact h s (by simp)
      · intro h t ht
        by_cases hne : s = t
        · rwa [← hne]
        · simp [hne] at ht
    rw [hunset]
    refine and_congr_right fun hnone => ?_
    -- The side that is set had no length before.
    have hsides (t : Side) : (l.side? t).or (if s = t then some length else none).toList.head? =
        if s = t then some length else l.side? t := by
      by_cases hne : s = t
      · subst hne
        simp [hnone]
      · simp [hne]
    simp only [hsides]

/-- What laying out a line takes, and what it leaves. -/
theorem layOut_eq_ok_iff (hdistinct : l.boundNames.Nodup)
    (hfit : l.boundNames.length ≤ l.capacity) :
    l.layOut line = (.ok (), l') ↔ l.Accepts line ∧ l'.Extends l line := by
  rw [layOut_eq]
  constructor
  · intro h
    split at h
    · cases h
    · -- The names are bound, so the table was fit for them.
      rename_i l₁ hbind
      obtain ⟨hshort, hnodup, hroom, rfl⟩ := (bindAll_eq_ok_iff hdistinct hfit).mp hbind
      split at h
      · cases h
      · -- The draft is laid out, so the code stays short and no side is set again.
        rename_i draft hdraft
        obtain ⟨hcode, hunset, hcapacity, hlabels, hlength, hsides⟩ :=
          (addDraft_eq_ok_iff hdraft).mp h
        simp only [side?_withNames, codeLength_withNames] at *
        exact ⟨⟨⟨draft, hdraft⟩, hshort, hnodup, hroom, hunset, hcode⟩,
          ⟨hcapacity, hlabels, hlength, hsides⟩⟩
  · intro ⟨haccepts, hextends⟩
    obtain ⟨draft, hdraft⟩ := haccepts.statement
    -- Neither part of the line is refused.
    have hbind := (bindAll_eq_ok_iff hdistinct hfit).mpr
      ⟨haccepts.names_short, haccepts.names_distinct, haccepts.names_fit, rfl⟩
    rw [hbind, hdraft]
    refine (addDraft_eq_ok_iff hdraft).mpr ⟨haccepts.code_short, ?_, hextends.capacity,
      hextends.labels, hextends.codeLength, ?_⟩
    · simpa using haccepts.side_unset
    · simpa using hextends.sides

theorem addLine_eq_ok_iff :
    l.addLine line = (.ok (), l') ↔ l.layOut line = (.ok (), l') := by
  unfold addLine
  rw [Prod.mk.injEq, mapError_eq_ok_iff, Prod.ext_iff]

end Layout

end TurtleVM.Assembly
