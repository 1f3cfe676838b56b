import Mathlib.Data.Set.Function
import TurtleVM.Proofs.Assembling
import TurtleVM.Proofs.RefusedLines

/-! # Names of labels do not matter

A label's name only tells it apart from other labels. If all labels of a program are given other
names, and no two of them the same, then assembling goes the same way: `label_names_do_not_matter`.
The image is the same, and so is an error, except that it speaks of a label by its new name.

Behind this, every operation of assembly commutes with renaming: first those that never compare two
names, then those on a table of labels whose names the renaming keeps apart.
-/

namespace TurtleVM.Assembly

/-! ### Renaming -/

/-- The token with the label that it names renamed. -/
def Token.rename (f : String → String) : Token → Token
  | definition name => definition (f name)
  | reference name => reference (f name)
  | token => token

/-- The line with all its labels renamed. -/
def Line.rename (f : String → String) (line : Line) : Line :=
  ⟨line.number, line.tokens.map (Token.rename f)⟩

/-- The cause with the label that it tells of renamed. -/
def Cause.rename (f : String → String) : Cause → Cause
  | repeatedLabel name => repeatedLabel (f name)
  | unknownLabel name => unknownLabel (f name)
  | cause => cause

/-- The error with the label that it tells of renamed. -/
def Error.rename (f : String → String) (e : Error) : Error := ⟨e.line, e.cause.rename f⟩

/-- The label with another name and the same offset. -/
def Label.rename (f : String → String) (label : Label) : Label := ⟨f label.name, label.offset⟩

/-- The draft with the target of its jump renamed. -/
def Draft.rename (f : String → String) : Draft → Draft
  | command (.jump condition label) => command (.jump condition (f label))
  | d => d

/-- The layout with all its labels renamed. -/
def Layout.rename (f : String → String) (l : Layout) : Layout :=
  { l with labels := l.labels.map (Label.rename f) }

/-- The emission with all its labels renamed. -/
def Emission.rename (f : String → String) (e : Emission) : Emission :=
  ⟨e.writer, e.labels.map (Label.rename f)⟩

/-- The line defines the name or refers to it. -/
def Line.Mentions (line : Line) (name : String) : Prop :=
  .definition name ∈ line.tokens ∨ .reference name ∈ line.tokens

/-- A renaming keeps names apart, and labels can have the names before and after it. -/
structure Renames (f : String → String) (names : Set String) : Prop where
  injOn : Set.InjOn f names
  short : ∀ name ∈ names, name.utf8ByteSize ≤ 32
  short_image : ∀ name ∈ names, (f name).utf8ByteSize ≤ 32

variable {f : String → String} {names : Set String} {line : Line} {lines : List Line}
variable {l : Layout} {e : Emission} {name : String}

/-! ### What a line states -/

theorem Line.labels_rename (f : String → String) (line : Line) :
    (line.rename f).labels = line.labels.map f := by
  unfold labels rename
  rw [List.filterMap_map, List.map_filterMap]
  congr 1
  funext token
  cases token <;> rfl

@[simp] theorem Token.rename_register (f : String → String) (r : Register) :
    (register r).rename f = register r := rfl

@[simp] theorem Token.rename_number (f : String → String) (value : Int) :
    (number value).rename f = number value := rfl

@[simp] theorem Token.rename_reference (f : String → String) (name : String) :
    (reference name).rename f = reference (f name) := rfl

@[simp] theorem Token.rename_eq_register_iff {token : Token} {r : Register} :
    token.rename f = register r ↔ token = register r := by
  cases token <;> simp [rename]

@[simp] theorem Token.rename_eq_number_iff {token : Token} {value : Int} :
    token.rename f = number value ↔ token = number value := by
  cases token <;> simp [rename]

@[simp] theorem Token.rename_eq_reference_iff {token : Token} {name : String} :
    token.rename f = reference name ↔ ∃ old, token = reference old ∧ f old = name := by
  cases token <;> simp [rename]

theorem Token.isDefinition_rename (f : String → String) (token : Token) :
    (token.rename f).isDefinition = token.isDefinition := by
  cases token <;> rfl

/-- The mnemonic stays where it is, and its operands are renamed. -/
theorem Line.instruction?_rename (f : String → String) (line : Line) :
    (line.rename f).instruction? =
      line.instruction?.map fun (word, operands) => (word, operands.map (Token.rename f)) := by
  have hdefinition : Token.isDefinition ∘ Token.rename f = Token.isDefinition :=
    funext (Token.isDefinition_rename f)
  unfold instruction? rename
  rw [List.dropWhile_map, hdefinition]
  match line.tokens.dropWhile Token.isDefinition with
  | [] => rfl
  | .mnemonic word :: operands => rfl
  | .definition name :: operands => rfl
  | .register r :: operands => rfl
  | .number value :: operands => rfl
  | .reference name :: operands => rfl

/-! Nothing that is wrong with an operand tells of a label. -/

theorem Statement.mapError_immediate (f : String → String) (value : Int) :
    (immediate value).mapError (Cause.rename f) = immediate value := by
  unfold immediate
  split <;> rfl

theorem Statement.mapError_sideLength (f : String → String) (value : Int) :
    (sideLength value).mapError (Cause.rename f) = sideLength value := by
  unfold sideLength
  split <;> rfl

theorem Statement.rightHand_rename (f : String → String) (m : Mnemonic) (token : Token) :
    rightHand m (token.rename f) = (rightHand m token).mapError (Cause.rename f) := by
  cases token with
  | number value =>
    simp only [Token.rename_number, rightHand]
    nth_rewrite 1 [← mapError_immediate f]
    cases immediate value <;> rfl
  | _ => rfl

/-- Renamed operands have the shapes that they had. -/
theorem Draft.parse_rename (f : String → String) (m : Mnemonic) (operands : List Token) :
    parse m (operands.map (Token.rename f)) =
      ((parse m operands).mapError (Cause.rename f)).map (rename f) := by
  fun_cases Draft.parse m operands
  case case1 | case2 | case3 | case4 | case6 | case9 => rfl
  case case5 r value | case8 dest src value =>
    simp only [List.map_cons, List.map_nil, Token.rename_register, Token.rename_number, parse]
    nth_rewrite 1 [← Statement.mapError_immediate f]
    cases Statement.immediate value <;> rfl
  case case7 g r rhs =>
    simp only [List.map_cons, List.map_nil, Token.rename_register, parse,
      Statement.rightHand_rename]
    cases Statement.rightHand (.arithmetic g) rhs <;> rfl
  case case10 c r rhs label =>
    simp only [List.map_cons, List.map_nil, Token.rename_register, Token.rename_reference, parse,
      Statement.rightHand_rename]
    cases Statement.rightHand (.jumpIf c) rhs <;> rfl
  case case11 s value length h =>
    simp only [List.map_cons, List.map_nil, Token.rename_number, parse]
    split
    · rename_i length' h'
      obtain rfl := Except.ok.inj (h.symm.trans h')
      rfl
    · rename_i cause h'
      cases h.symm.trans h'
  case case12 s value cause h =>
    have hcause := Statement.mapError_sideLength f value
    rw [h] at hcause
    simp only [List.map_cons, List.map_nil, Token.rename_number, parse]
    split
    · rename_i length h'
      cases h.symm.trans h'
    · rename_i cause' h'
      obtain rfl := Except.error.inj (h.symm.trans h')
      exact congrArg _ (Except.error.inj hcause).symm
  case case13 =>
    -- No other operands get one of the shapes by being renamed.
    unfold parse
    split
    case h_12 => rfl
    all_goals simp_all [List.map_eq_cons_iff]

theorem Line.draft?_rename (f : String → String) (line : Line) :
    (line.rename f).draft? =
      (line.draft?.mapError (Cause.rename f)).map (Option.map (Draft.rename f)) := by
  unfold draft? Draft.ofWords
  rw [instruction?_rename]
  match line.instruction? with
  | none => rfl
  | some (word, operands) =>
    dsimp only [Option.map_some]
    cases Mnemonic.ofWord? word with
    | none => rfl
    | some m =>
      dsimp only
      rw [Draft.parse_rename]
      cases Draft.parse m operands <;> rfl

/-- The target of a jump is mentioned on its line. -/
theorem Line.mentions_of_jump {condition : Condition}
    (h : line.draft? = .ok (some (.command (.jump condition name)))) : line.Mentions name := by
  obtain ⟨word, ⟨names, htokens⟩, -⟩ := draft?_eq_some_iff.mp h
  refine .inr ?_
  rw [htokens]
  cases condition <;> simp [Draft.operands, Command.operands]

theorem Line.mentions_of_mem_labels (h : name ∈ line.labels) : line.Mentions name := by
  obtain ⟨token, htoken, hname⟩ := List.mem_filterMap.mp h
  cases token with
  | definition name' =>
    obtain rfl := Option.some.inj hname
    exact .inl htoken
  | _ => cases hname

/-! ### Laying out -/

namespace Layout

/-- All names in the table are among these. -/
def NamesIn (names : Set String) (l : Layout) : Prop := ∀ name ∈ l.boundNames, name ∈ names

theorem boundNames_rename (f : String → String) (l : Layout) :
    (l.rename f).boundNames = l.boundNames.map f := by
  simp [boundNames, rename, Label.rename, Function.comp_def]

theorem rename_withNames (f : String → String) (names : List String) (l : Layout) :
    (l.withNames names).rename f = (l.rename f).withNames (names.map f) := by
  simp [withNames, rename, Label.rename, Function.comp_def]

theorem mem_boundNames_rename_iff (hf : Renames f names) (hl : l.NamesIn names)
    (hname : name ∈ names) : f name ∈ (l.rename f).boundNames ↔ name ∈ l.boundNames := by
  rw [boundNames_rename, List.mem_map]
  constructor
  · intro ⟨old, hold, heq⟩
    obtain rfl := hf.injOn (hl old hold) hname heq
    exact hold
  · intro h
    exact ⟨name, h, rfl⟩

/-- A name is bound, or refused for the same cause. -/
theorem bind_rename (hf : Renames f names) (hl : l.NamesIn names) (hname : name ∈ names) :
    (l.rename f).bind (f name) =
      ((l.bind name).mapError (Cause.rename f)).map (Layout.rename f) := by
  have hold := Nat.not_lt.mpr (hf.short name hname)
  have hnew := Nat.not_lt.mpr (hf.short_image name hname)
  have hroom : (l.rename f).capacity ≤ (l.rename f).boundNames.length ↔
      l.capacity ≤ l.boundNames.length := by
    rw [boundNames_rename, List.length_map]
    rfl
  rw [bind_eq, bind_eq, if_neg hold, if_neg hnew]
  simp only [mem_boundNames_rename_iff hf hl hname, hroom]
  split
  · rfl
  · split
    · rfl
    · exact congrArg _ (rename_withNames f [name] l).symm

theorem NamesIn.withNames (hl : l.NamesIn names) {new : List String}
    (hnew : ∀ name ∈ new, name ∈ names) : (l.withNames new).NamesIn names := by
  intro name hname
  rw [boundNames_withNames, List.mem_append] at hname
  exact hname.elim (hl name) (hnew name)

theorem NamesIn.bind (hl : l.NamesIn names) (hname : name ∈ names) {l' : Layout}
    (h : l.bind name = .ok l') : l'.NamesIn names := by
  obtain ⟨-, -, -, rfl⟩ := bind_eq_ok_iff.mp h
  apply hl.withNames
  simpa using hname

theorem NamesIn.bindAll {new : List String} (hl : l.NamesIn names)
    (hnew : ∀ name ∈ new, name ∈ names) : (l.bindAll new).2.NamesIn names := by
  induction new generalizing l with
  | nil => exact hl
  | cons name new ih =>
    obtain ⟨hname, hnew⟩ := List.forall_mem_cons.mp hnew
    unfold Layout.bindAll
    split
    · rename_i l' hbind
      exact ih (hl.bind hname hbind) hnew
    · exact hl

/-- Names are bound up to the same one. -/
theorem bindAll_rename (hf : Renames f names) {new : List String} (hl : l.NamesIn names)
    (hnew : ∀ name ∈ new, name ∈ names) :
    (l.rename f).bindAll (new.map f) =
      Prod.map (Except.mapError (Cause.rename f)) (Layout.rename f) (l.bindAll new) := by
  induction new generalizing l with
  | nil => rfl
  | cons name new ih =>
    obtain ⟨hname, hnew⟩ := List.forall_mem_cons.mp hnew
    rw [List.map_cons, bindAll, bindAll, bind_rename hf hl hname]
    cases hbind : l.bind name with
    | error cause => rfl
    | ok l' => exact ih (hl.bind hname hbind) hnew

/-- A statement makes the code as long and sets the sides as before. -/
theorem addStatement_rename (f : String → String) (s : Statement) (l : Layout) :
    (l.rename f).addStatement s =
      Prod.map (Except.mapError (Cause.rename f)) (Layout.rename f) (l.addStatement s) := by
  cases s with
  | instruction i =>
    have hlength : (l.rename f).codeLength = l.codeLength := rfl
    by_cases hshort : l.codeLength + i.width ≤ Image.maxCodeLength
    · simp only [addStatement, extend, hlength, dif_pos hshort]
      rfl
    · simp only [addStatement, extend, hlength, dif_neg hshort]
      rfl
  | side s length =>
    have hside : (l.rename f).side? s = l.side? s := by cases s <;> rfl
    have hset : (l.rename f).withSide s length = (l.withSide s length).rename f := by
      cases s <;> rfl
    simp only [addStatement, hside, hset]
    cases (l.side? s).isSome <;> rfl

/-- While lines are laid out it does not matter where a jump goes. -/
theorem addDraft_rename (f : String → String) (draft : Option Draft) (l : Layout) :
    (l.rename f).addDraft (draft.map (Draft.rename f)) =
      Prod.map (Except.mapError (Cause.rename f)) (Layout.rename f) (l.addDraft draft) := by
  match draft with
  | none => rfl
  | some d =>
    have hstatement : (d.rename f).statement (fun _ => 0) = d.statement fun _ => 0 := by
      match d with
      | .command (.plain i straight) => rfl
      | .command (.jump condition label) => rfl
      | .side s length nonzero => rfl
    simp only [addDraft, Option.map_some, hstatement]
    exact addStatement_rename f _ l

theorem NamesIn.addDraft (hl : l.NamesIn names) (draft : Option Draft) :
    (l.addDraft draft).2.NamesIn names := by
  match draft with
  | none => exact hl
  | some d =>
    intro name hname
    rw [Layout.addDraft, boundNames, (addStatement_labels _ l).2] at hname
    exact hl name hname

/-- A line is taken, or refused for the same cause. -/
theorem layOut_rename (hf : Renames f names) (hl : l.NamesIn names)
    (hline : ∀ name, line.Mentions name → name ∈ names) :
    (l.rename f).layOut (line.rename f) =
      Prod.map (Except.mapError (Cause.rename f)) (Layout.rename f) (l.layOut line) := by
  have hlabels : ∀ name ∈ line.labels, name ∈ names :=
    fun name hname => hline name (Line.mentions_of_mem_labels hname)
  rw [layOut_eq, layOut_eq, Line.labels_rename, bindAll_rename hf hl hlabels, Line.draft?_rename]
  rcases l.bindAll line.labels with ⟨cause | ⟨⟩, l'⟩
  · rfl
  · cases line.draft? with
    | error cause => rfl
    | ok draft => exact addDraft_rename f draft l'

theorem NamesIn.layOut (hl : l.NamesIn names)
    (hline : ∀ name, line.Mentions name → name ∈ names) : (l.layOut line).2.NamesIn names := by
  have hlabels : ∀ name ∈ line.labels, name ∈ names :=
    fun name hname => hline name (Line.mentions_of_mem_labels hname)
  have hbound := hl.bindAll hlabels
  rw [layOut_eq]
  rcases hall : l.bindAll line.labels with ⟨cause | ⟨⟩, l'⟩
  all_goals rw [hall] at hbound
  · exact hbound
  · cases line.draft? with
    | error cause => exact hbound
    | ok draft => exact hbound.addDraft draft

theorem addLine_rename (hf : Renames f names) (hl : l.NamesIn names)
    (hline : ∀ name, line.Mentions name → name ∈ names) :
    (l.rename f).addLine (line.rename f) =
      Prod.map (Except.mapError (Error.rename f)) (Layout.rename f) (l.addLine line) := by
  unfold addLine
  rw [layOut_rename hf hl hline]
  rcases l.layOut line with ⟨_ | _, l'⟩ <;> rfl

end Layout

theorem layOutAll_rename (hf : Renames f names) (hl : l.NamesIn names)
    (hlines : ∀ line ∈ lines, ∀ name, line.Mentions name → name ∈ names) :
    layOutAll .ok (lines.map (Line.rename f)) (l.rename f) =
      ((layOutAll .ok lines l).mapError (Error.rename f)).map (Layout.rename f) := by
  induction lines generalizing l with
  | nil => rfl
  | cons line lines ih =>
    obtain ⟨hline, hlines⟩ := List.forall_mem_cons.mp hlines
    rw [List.map_cons, layOutAll, layOutAll]
    simp only [Layout.addLine_rename hf hl hline]
    have hleft : (l.addLine line).2.NamesIn names := hl.layOut hline
    rcases hadd : l.addLine line with ⟨error | ⟨⟩, l'⟩
    · rfl
    · rw [hadd] at hleft
      exact ih hleft hlines

theorem Layout.NamesIn.layOutAll (hl : l.NamesIn names)
    (hlines : ∀ line ∈ lines, ∀ name, line.Mentions name → name ∈ names) {l' : Layout}
    (h : layOutAll .ok lines l = .ok l') : l'.NamesIn names := by
  induction lines generalizing l with
  | nil =>
    obtain rfl := Except.ok.inj h
    exact hl
  | cons line lines ih =>
    obtain ⟨hline, hlines⟩ := List.forall_mem_cons.mp hlines
    have hleft : (l.addLine line).2.NamesIn names := hl.layOut hline
    rw [Assembly.layOutAll] at h
    rcases hadd : l.addLine line with ⟨error | ⟨⟩, l₁⟩
    · simp only [hadd] at h
      cases h
    · simp only [hadd] at h hleft
      exact ih hleft hlines h

/-! ### Emitting -/

/-- The table binds a renamed label to the offset that it had. -/
theorem offsetOf?_rename (hf : Set.InjOn f names) {labels : List Label}
    (hlabels : ∀ label ∈ labels, label.name ∈ names) (hname : name ∈ names) :
    offsetOf? (labels.map (Label.rename f)) (f name) = offsetOf? labels name := by
  unfold offsetOf?
  induction labels with
  | nil => rfl
  | cons label labels ih =>
    obtain ⟨hlabel, hlabels⟩ := List.forall_mem_cons.mp hlabels
    have hsame : (f label.name == f name) = (label.name == name) := by
      rw [Bool.eq_iff_iff, beq_iff_eq, beq_iff_eq]
      exact hf.eq_iff hlabel hname
    simp only [List.map_cons, List.find?_cons, Label.rename, hsame]
    cases label.name == name with
    | true => rfl
    | false => exact ih hlabels

namespace Emission

theorem resolve_rename (hf : Renames f names) {labels : List Label}
    (hlabels : ∀ label ∈ labels, label.name ∈ names) (hname : name ∈ names) :
    resolve (labels.map (Label.rename f)) (f name) =
      (resolve labels name).mapError (Cause.rename f) := by
  have hold := Layout.shortName_of_le (hf.short name hname)
  have hnew := Layout.shortName_of_le (hf.short_image name hname)
  simp only [resolve, hold, hnew, ok_bind, offsetOf?_rename hf.injOn hlabels hname]
  cases offsetOf? labels name <;> rfl

/-- A draft is resolved to the same statement. -/
theorem resolve_draft_rename (hf : Renames f names) {labels : List Label}
    (hlabels : ∀ label ∈ labels, label.name ∈ names) {d : Draft}
    (hd : ∀ condition name, d = .command (.jump condition name) → name ∈ names) :
    (d.rename f).resolve (resolve (labels.map (Label.rename f))) =
      (d.resolve (resolve labels)).mapError (Cause.rename f) := by
  match d with
  | .command (.plain i straight) => rfl
  | .side s length nonzero => rfl
  | .command (.jump condition name) =>
    simp only [Draft.rename, Draft.resolve, resolve_rename hf hlabels (hd condition name rfl)]
    cases resolve labels name <;> rfl

/-- All names in the table are among these. -/
def NamesIn (names : Set String) (e : Emission) : Prop := ∀ label ∈ e.labels, label.name ∈ names

theorem addDraft_rename (hf : Renames f names) (he : e.NamesIn names) {draft : Option Draft}
    (hdraft : ∀ condition name, draft = some (.command (.jump condition name)) → name ∈ names) :
    (e.rename f).addDraft (draft.map (Draft.rename f)) =
      Prod.map (Except.mapError (Cause.rename f)) (Emission.rename f) (e.addDraft draft) := by
  match draft with
  | none => rfl
  | some d =>
    have hd : ∀ condition name, d = .command (.jump condition name) → name ∈ names := by
      intro condition name heq
      exact hdraft condition name (congrArg some heq)
    simp only [addDraft, Option.map_some, rename, resolve_draft_rename hf he hd]
    cases d.resolve (resolve e.labels) with
    | error cause => rfl
    | ok statement =>
      cases statement with
      | side s length => rfl
      | instruction i =>
        -- A failure to write tells of no label.
        cases houtcome : (e.writer.add i).1 <;>
          simp [houtcome, Except.mapError, Cause.rename, Emission.rename]

theorem labels_addDraft (draft : Option Draft) (e : Emission) :
    (e.addDraft draft).2.labels = e.labels := by
  match draft with
  | none => rfl
  | some d =>
    unfold addDraft
    dsimp only
    split <;> rfl

theorem labels_emit (line : Line) (e : Emission) : (e.emit line).2.labels = e.labels := by
  rw [emit_eq]
  cases line.draft? with
  | error cause => rfl
  | ok draft => exact labels_addDraft draft e

theorem emit_rename (hf : Renames f names) (he : e.NamesIn names)
    (hline : ∀ name, line.Mentions name → name ∈ names) :
    (e.rename f).emit (line.rename f) =
      Prod.map (Except.mapError (Cause.rename f)) (Emission.rename f) (e.emit line) := by
  rw [emit_eq, emit_eq, Line.draft?_rename]
  cases hdraft : line.draft? with
  | error cause => rfl
  | ok draft =>
    apply addDraft_rename hf he
    intro condition name heq
    subst heq
    exact hline name (Line.mentions_of_jump hdraft)

theorem addLine_rename (hf : Renames f names) (he : e.NamesIn names)
    (hline : ∀ name, line.Mentions name → name ∈ names) :
    (e.rename f).addLine (line.rename f) =
      Prod.map (Except.mapError (Error.rename f)) (Emission.rename f) (e.addLine line) := by
  unfold addLine
  rw [emit_rename hf he hline]
  rcases e.emit line with ⟨_ | _, e'⟩ <;> rfl

theorem start_rename (f : String → String) (l : Layout) (buffer : Bytes) :
    start (l.rename f) buffer =
      ((start l buffer).mapError (Error.rename f)).map (Emission.rename f) := by
  unfold start
  cases Image.Writer.start buffer <;> rfl

/-- Emitting starts with the table of the layout. -/
theorem namesIn_of_start {buffer : Bytes} (hl : l.NamesIn names) (h : start l buffer = .ok e) :
    e.NamesIn names := by
  unfold start at h
  split at h
  · obtain rfl := Except.ok.inj h
    exact fun label hlabel => hl label.name (List.mem_map_of_mem hlabel)
  · cases h

end Emission

theorem emitAll_rename (hf : Renames f names) (he : e.NamesIn names)
    (hlines : ∀ line ∈ lines, ∀ name, line.Mentions name → name ∈ names) :
    emitAll .ok (lines.map (Line.rename f)) (e.rename f) =
      Prod.map (Except.mapError (Error.rename f)) (Emission.rename f) (emitAll .ok lines e) := by
  induction lines generalizing e with
  | nil => rfl
  | cons line lines ih =>
    obtain ⟨hline, hlines⟩ := List.forall_mem_cons.mp hlines
    rw [List.map_cons, emitAll, emitAll]
    simp only [Emission.addLine_rename hf he hline]
    have hlabels : (e.addLine line).2.labels = e.labels := e.labels_emit line
    rcases hadd : e.addLine line with ⟨error | ⟨⟩, e'⟩
    · rfl
    · rw [hadd] at hlabels
      refine ih ?_ hlines
      intro label hlabel
      exact he label (hlabels ▸ hlabel)

/-! ### Assembling -/

/-- **Names of labels do not matter.** Let labels be renamed so that names that occur stay apart,
and let all of them, old and new, be short enough for labels. Then assembly gives the same image
and the same description of it, or fails on the same line for the same cause, which tells of a
label by its new name, and leaves the same bytes. -/
theorem label_names_do_not_matter (f : String → String) (capacity : Nat) (lines : List Line)
    (buffer : Bytes) (hf : Renames f {name | ∃ line ∈ lines, line.Mentions name}) :
    assemble capacity (lines.map (Line.rename f)) buffer =
      ((assemble capacity lines buffer).1.mapError (Error.rename f),
        (assemble capacity lines buffer).2) := by
  have hlines : ∀ line ∈ lines, ∀ name, line.Mentions name →
      name ∈ {name | ∃ line ∈ lines, line.Mentions name} :=
    fun line hline name hname => ⟨line, hline, hname⟩
  have hempty : (Layout.empty capacity).NamesIn {name | ∃ line ∈ lines, line.Mentions name} :=
    fun _ h => nomatch h
  have hlayout := layOutAll_rename hf hempty hlines
  -- A table without labels stays as it is.
  have hsame : (Layout.empty capacity).rename f = Layout.empty capacity := rfl
  rw [hsame] at hlayout
  unfold assemble assembleWith
  rw [hlayout]
  cases hl : layOutAll .ok lines (.empty capacity) with
  | error error => rfl
  | ok l =>
    have hnames := hempty.layOutAll hlines hl
    simp only [Except.mapError, Except.map, Emission.start_rename]
    cases hstart : Emission.start l buffer with
    | error error => rfl
    | ok e =>
      have hemit := emitAll_rename hf (Emission.namesIn_of_start hnames hstart) hlines
      simp only [hemit]
      rcases emitAll .ok lines e with ⟨_ | _, e'⟩ <;> rfl

/-- A jump to a label that is never defined, behind one that is. -/
def danglingJump : List Line :=
  [⟨1, [.definition "top", .mnemonic "DRW"]⟩,
    ⟨2, [.mnemonic "JNZ", .register .a, .reference "end"]⟩]

/-- The labels of `danglingJump` change names. -/
def exchange (name : String) : String := if name = "top" then "end" else "top"

/-- The jump to `end` is reported, and as one to `top` when the two labels have changed names. -/
theorem label_names_do_not_matter_to_danglingJump :
    Renames exchange {name | ∃ line ∈ danglingJump, line.Mentions name} ∧
      assemble 1 danglingJump #[9, 9, 9, 9, 9, 9] =
        (.error (.onLine 2 (.unknownLabel "end")), #[0, 2, 0, 2, 1, 9]) ∧
      assemble 1 (danglingJump.map (Line.rename exchange)) #[9, 9, 9, 9, 9, 9] =
        (.error (.onLine 2 (.unknownLabel "top")), #[0, 2, 0, 2, 1, 9]) := by
  have hmentions : ∀ name, (∃ line ∈ danglingJump, line.Mentions name) ↔
      name = "top" ∨ name = "end" := by
    simp [danglingJump, Line.Mentions]
  have hrenames : Renames exchange {name | ∃ line ∈ danglingJump, line.Mentions name} := by
    simp only [hmentions]
    refine ⟨?_, ?_, ?_⟩
    · rintro a (rfl | rfl) b (rfl | rfl) hab
      · rfl
      · exact absurd hab (by decide)
      · exact absurd hab (by decide)
      · rfl
    · rintro name (rfl | rfl) <;> decide
    · rintro name (rfl | rfl) <;> decide
  have hold : assemble 1 danglingJump #[9, 9, 9, 9, 9, 9] =
      (.error (.onLine 2 (.unknownLabel "end")), #[0, 2, 0, 2, 1, 9]) := by decide +kernel
  refine ⟨hrenames, hold, ?_⟩
  rw [label_names_do_not_matter exchange 1 danglingJump _ hrenames, hold]
  rfl

end TurtleVM.Assembly
