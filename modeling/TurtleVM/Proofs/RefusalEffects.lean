import TurtleVM.Proofs.RefusedLines

/-! # What a refused line changes

A line is refused either at one of its names or, behind all of them, at its statement. The names
before that place have been bound by then (`BindsUpTo`), and nothing else has changed, with one
exception: a directive whose side was set before is refused after the new length has been taken
(`addDraft_error_cases`).

So what `refused_line_keeps_layout` says of a refused line holds of the sides of the canvas with
that exception only, and `repeated_directive_takes_effect` shows that the exception is one.
-/

namespace TurtleVM.Assembly

variable {cause : Cause}

namespace Layout

variable {l l' : Layout} {line : Line} {name : String} {names bound : List String}

/-! ### Names -/

/-- Of the names in a row those in front are bound: all of them, or those before the first that is
refused. -/
inductive BindsUpTo (l : Layout) : List String → List String → Except Cause Unit → Prop
  | all (names : List String) : BindsUpTo l names names (.ok ())
  | refused {bound rest : List String} {name : String} {cause : Cause}
      (h : (l.withNames bound).bind name = .error cause) :
      BindsUpTo l (bound ++ name :: rest) bound (.error cause)

theorem BindsUpTo.cons {outcome : Except Cause Unit}
    (h : (l.withNames [name]).BindsUpTo names bound outcome) :
    l.BindsUpTo (name :: names) (name :: bound) outcome := by
  cases h with
  | all => exact .all (name :: names)
  | @refused _ rest name' cause hbind =>
    rw [withNames_withNames] at hbind
    exact @refused _ (name :: bound) _ _ _ hbind

/-- Whether it ends well or not, binding names binds those in front. -/
theorem exists_bindsUpTo (names : List String) (l : Layout) :
    ∃ bound, l.BindsUpTo names bound (l.bindAll names).1 ∧
      (l.bindAll names).2 = l.withNames bound := by
  induction names generalizing l with
  | nil => exact ⟨[], .all [], (withNames_nil l).symm⟩
  | cons name names ih =>
    cases hbind : l.bind name with
    | error cause =>
      have hfirst : (l.withNames []).bind name = .error cause := by rwa [withNames_nil]
      refine ⟨[], ?_, ?_⟩
      · simp only [bindAll, hbind]
        exact .refused hfirst
      · simp only [bindAll, hbind, withNames_nil]
    | ok l₁ =>
      obtain ⟨-, -, -, rfl⟩ := bind_eq_ok_iff.mp hbind
      obtain ⟨bound, hbound, hleft⟩ := ih (l.withNames [name])
      refine ⟨name :: bound, ?_, ?_⟩
      · simp only [bindAll, hbind]
        exact hbound.cons
      · simp only [bindAll, hbind, hleft, withNames_withNames, List.singleton_append]

/-- The labels that come from binding names stand behind the others, at the end of the code. -/
theorem exists_labels_withNames (names : List String) (l : Layout) :
    ∃ added, (l.withNames names).labels = l.labels ++ added ∧ added.map Label.name = names ∧
      ∀ label ∈ added, label.offset.toNat = l.codeLength := by
  refine ⟨names.map fun name => ⟨name, UInt16.ofNat l.codeLength⟩, rfl, ?_, ?_⟩
  · simp [Function.comp_def]
  · intro label hlabel
    obtain ⟨name, -, rfl⟩ := List.mem_map.mp hlabel
    exact l.toNat_ofNat_codeLength

theorem BindsUpTo.eq_of_ok (h : l.BindsUpTo names bound (.ok ())) : bound = names := by
  cases h
  rfl

theorem BindsUpTo.ne_repeatedDirective (h : l.BindsUpTo names bound (.error cause)) (s : Side) :
    cause ≠ .repeatedDirective s := by
  cases h with
  | refused hbind =>
    rintro rfl
    rw [bind_eq] at hbind
    split_ifs at hbind <;> cases hbind

end Layout

/-! ### Reasons not to state anything -/

theorem Statement.cause_of_immediate {value : Int} (h : immediate value = .error cause) :
    cause = .immediateOutOfRange value := by
  unfold immediate at h
  split at h <;> cases h
  rfl

theorem Statement.cause_of_sideLength {value : Int} (h : sideLength value = .error cause) :
    cause = .sideOutOfRange value := by
  unfold sideLength at h
  split at h <;> cases h
  rfl

theorem Statement.cause_of_rightHand {m : Mnemonic} {token : Token}
    (h : rightHand m token = .error cause) :
    cause = .invalidOperands m ∨ ∃ value, cause = .immediateOutOfRange value := by
  cases token with
  | register r => cases h
  | number value =>
    rcases bind_eq_error.mp h with hvalue | ⟨w, -, h⟩
    · exact .inr ⟨value, cause_of_immediate hvalue⟩
    · cases h
  | definition | mnemonic | reference =>
    cases h
    exact .inl rfl

/-- Reading a draft fails for the shape of the operands or for a number that does not fit. -/
theorem Draft.cause_of_parse {m : Mnemonic} {tokens : List Token}
    (h : parse m tokens = .error cause) : cause = .invalidOperands m ∨
      ∃ value, cause = .immediateOutOfRange value ∨ cause = .sideOutOfRange value := by
  unfold parse at h
  split at h
  -- First the shapes without a number, which cannot fail.
  case h_1 | h_2 | h_3 | h_4 | h_6 | h_9 => cases h
  case h_5 | h_8 =>
    rcases bind_eq_error.mp h with hvalue | ⟨w, -, h⟩
    · exact .inr ⟨_, .inl (Statement.cause_of_immediate hvalue)⟩
    · cases h
  case h_7 | h_10 =>
    rcases bind_eq_error.mp h with hrhs | ⟨rhs, -, h⟩
    · exact (Statement.cause_of_rightHand hrhs).imp_right fun ⟨value, h⟩ => ⟨value, .inl h⟩
    · cases h
  case h_11 =>
    split at h
    · cases h
    · rename_i cause' hlength
      cases h
      exact .inr ⟨_, .inr (Statement.cause_of_sideLength hlength)⟩
  case h_12 =>
    cases h
    exact .inl rfl

theorem Line.ne_repeatedDirective_of_draft? {line : Line} (h : line.draft? = .error cause)
    (s : Side) : cause ≠ .repeatedDirective s := by
  rintro rfl
  unfold draft? at h
  split at h
  · cases h
  rcases bind_eq_error.mp h with hread | ⟨d, -, h⟩
  · unfold Draft.ofWords at hread
    split at hread
    · rcases Draft.cause_of_parse hread with h | ⟨value, h | h⟩ <;> cases h
    · cases hread
  · cases h

/-! ### A refused line -/

namespace Layout

variable {l l' : Layout} {line : Line} {bound : List String}

/-- A draft is refused either because its command makes the code too long, and nothing changes, or
because its side was set before, and it is set again. -/
theorem addDraft_error_cases {draft : Option Draft} (h : l.addDraft draft = (.error cause, l')) :
    (∃ length, cause = .codeTooLong length ∧ l' = l) ∨
      ∃ s length nonzero, draft = some (.side s length nonzero) ∧ cause = .repeatedDirective s ∧
        l' = l.withSide s length := by
  match draft with
  | none => cases h
  | some (.command c) =>
    simp only [addDraft, Draft.statement, addStatement, extend] at h
    split at h
    · cases h
    · rename_i cause' hextend
      split at hextend
      · cases hextend
      · cases hextend
        cases h
        exact .inl ⟨_, rfl, rfl⟩
  | some (.side s length nonzero) =>
    simp only [addDraft, Draft.statement, addStatement] at h
    split at h
    · cases h
      exact .inr ⟨s, length, nonzero, rfl, rfl, rfl⟩
    · cases h

/-- Where a line is refused, and what it leaves. Up to that place its names are bound. -/
theorem layOut_error_cases (h : l.layOut line = (.error cause, l')) :
    ∃ bound, (bound = line.labels ∨ l.BindsUpTo line.labels bound (.error cause)) ∧
      ((∀ s, cause ≠ .repeatedDirective s) ∧ l' = l.withNames bound ∨
        ∃ s length, cause = .repeatedDirective s ∧ line.sideLength? s = some length ∧
          l' = (l.withNames bound).withSide s length) := by
  obtain ⟨bound, hbound, hleft⟩ := exists_bindsUpTo line.labels l
  rw [layOut_eq] at h
  rcases hall : l.bindAll line.labels with ⟨cause' | ⟨⟩, l₁⟩
  · -- Refused at a name.
    rw [hall] at h hbound hleft
    cases h
    exact ⟨bound, .inr hbound, .inl ⟨hbound.ne_repeatedDirective, hleft⟩⟩
  · -- Refused at the statement, with all names bound.
    rw [hall] at h hbound hleft
    obtain rfl := hbound.eq_of_ok
    refine ⟨line.labels, .inl rfl, ?_⟩
    match hdraft : line.draft? with
    | .error cause' =>
      simp only [hdraft] at h
      cases h
      exact .inl ⟨Line.ne_repeatedDirective_of_draft? hdraft, hleft⟩
    | .ok draft =>
      simp only [hdraft] at h
      obtain rfl : l₁ = l.withNames line.labels := hleft
      rcases addDraft_error_cases h with ⟨length, rfl, rfl⟩ | ⟨s, length, nonzero, rfl, rfl, rfl⟩
      · exact .inl ⟨nofun, rfl⟩
      · refine .inr ⟨s, length, rfl, ?_, rfl⟩
        simp [Line.sideLength?_of_draft? hdraft, Draft.sideLength?]

theorem size_eq_of_sides (h : ∀ s, l'.side? s = l.side? s) : l'.size = l.size := by
  have hwidth : l'.width = l.width := h .width
  have hheight : l'.height = l.height := h .height
  rw [size, hwidth, hheight]
  rfl

/-- **A refused line leaves the layout as it was**, whatever the layout and the line, but for labels
and for a side that is set again. The code is as long as before. Labels that were bound keep their
offsets; those of the line up to the place where it is refused have been bound to the end of the
code. A side of the canvas keeps its length, unless the line is refused because it sets this side a
second time: then the side has the new length. -/
theorem refused_line_keeps_layout {l : Layout} {line : Line} {e : Error}
    (h : (l.addLine line).1 = .error e) :
    (l.addLine line).2.codeLength = l.codeLength ∧
    (l.addLine line).2.capacity = l.capacity ∧
    (∀ name offset, l.label? name = some offset →
      (l.addLine line).2.label? name = some offset) ∧
    (∃ bound, (bound = line.labels ∨ l.BindsUpTo line.labels bound (.error e.cause)) ∧
      ∃ added, (l.addLine line).2.labels = l.labels ++ added ∧ added.map Label.name = bound ∧
        ∀ label ∈ added, label.offset.toNat = l.codeLength) ∧
    (∀ s, e.cause ≠ .repeatedDirective s → (l.addLine line).2.side? s = l.side? s) ∧
    ((∀ s, e.cause ≠ .repeatedDirective s) → (l.addLine line).2.size = l.size) ∧
    ∀ s, e.cause = .repeatedDirective s →
      ∃ length, line.sideLength? s = some length ∧ (l.addLine line).2.side? s = some length := by
  obtain ⟨cause, hcause, rfl⟩ := mapError_eq_error_iff.mp h
  have hleaves : l.layOut line = (.error cause, (l.addLine line).2) := Prod.ext hcause rfl
  generalize (l.addLine line).2 = l' at hleaves ⊢
  obtain ⟨bound, hbound, hleft⟩ := layOut_error_cases hleaves
  obtain ⟨added, hadded, hnames, hoffsets⟩ := exists_labels_withNames bound l
  rcases hleft with ⟨hnone, rfl⟩ | ⟨t, length, rfl, hstates, rfl⟩
  · -- Names have been bound and nothing else has been done.
    have hsides (s : Side) : (l.withNames bound).side? s = l.side? s := side?_withNames bound s l
    refine ⟨codeLength_withNames bound l, capacity_withNames bound l,
      fun _ _ => label?_of_append hadded, ⟨bound, hbound, added, hadded, hnames, hoffsets⟩,
      fun s _ => hsides s, fun _ => size_eq_of_sides hsides, ?_⟩
    intro s hs
    exact absurd hs (hnone s)
  · -- Then a side has been set again, and the line has been refused for it.
    have hlabels : ((l.withNames bound).withSide t length).labels = l.labels ++ added :=
      (labels_withSide t length _).trans hadded
    refine ⟨(codeLength_withSide t length _).trans (codeLength_withNames bound l),
      (capacity_withSide t length _).trans (capacity_withNames bound l),
      fun _ _ => label?_of_append hlabels, ⟨bound, hbound, added, hlabels, hnames, hoffsets⟩,
      ?_, ?_, ?_⟩
    · intro s hs
      have hne : t ≠ s := fun hts => hs (congrArg _ hts)
      rw [side?_withSide, if_neg hne, side?_withNames]
    · intro hnone
      exact absurd rfl (hnone t)
    · intro s hs
      cases hs
      exact ⟨length, hstates, by rw [side?_withSide, if_pos rfl]⟩

/-- `b: a: WIDTH 20` behind `WIDTH 10` and `a: DRW` is refused at the name `a`. By then `b` is bound
to the end of the code, and the width has not been set again. -/
theorem refused_line_keeps_layout_at_a_name :
    let l := (empty 2).after
      [⟨1, [.mnemonic "WIDTH", .number 10]⟩, ⟨2, [.definition "a", .mnemonic "DRW"]⟩]
    let line := Line.mk 3 [.definition "b", .definition "a", .mnemonic "WIDTH", .number 20]
    (l.addLine line).1 = .error (.onLine 3 (.repeatedLabel "a")) ∧
      l.label? "a" = some 0 ∧ (l.addLine line).2.label? "a" = some 0 ∧
      (l.addLine line).2.label? "b" = some 1 ∧
      l.codeLength = 1 ∧ (l.addLine line).2.codeLength = 1 ∧
      l.size = ⟨10, 512⟩ ∧ (l.addLine line).2.size = ⟨10, 512⟩ := by
  intro l line
  have hrefused : (l.addLine line).1 = .error (.onLine 3 (.repeatedLabel "a")) := by decide +kernel
  have hbound : l.label? "a" = some 0 := by decide +kernel
  have hlength : l.codeLength = 1 := by decide +kernel
  have hsize : l.size = ⟨10, 512⟩ := by decide +kernel
  obtain ⟨hcode, -, hkept, -, -, hsizes, -⟩ := refused_line_keeps_layout hrefused
  exact ⟨hrefused, hbound, hkept "a" 0 hbound, by decide +kernel, hlength, hcode.trans hlength,
    hsize, (hsizes nofun).trans hsize⟩

/-- The exception is one: a second `WIDTH` is refused and takes effect. -/
theorem repeated_directive_takes_effect :
    let l := (empty 2).after [⟨1, [.mnemonic "WIDTH", .number 10]⟩]
    let line := Line.mk 2 [.mnemonic "WIDTH", .number 20]
    (l.addLine line).1 = .error (.onLine 2 (.repeatedDirective .width)) ∧
      l.size = ⟨10, 512⟩ ∧ (l.addLine line).2.size = ⟨20, 512⟩ := by
  decide +kernel

end Layout

end TurtleVM.Assembly
