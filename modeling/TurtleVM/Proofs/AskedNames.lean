import TurtleVM.Proofs.Drafts

/-! # Names that statements ask for

Reading a statement asks its resolver for the target of a jump and for nothing else. Since a
statement is a resolved draft, this is a matter of drafts: only a jump asks, only for its last
operand, and only after the operands in front have been accepted (`asksFor_iff_operands`).

Everything but the target is settled by then. So two resolvers make statements that are
`SameButTarget`, and what is refused for another reason is refused with every resolver:
`resolver_decides_targets_only`. That is why offsets can be laid out before any label is known.
-/

namespace TurtleVM.Assembly.Statement

variable {m : Mnemonic} {operands : List Token} {name name' : String} {condition : Condition}
  {cause : Cause}

/-! ### Asking -/

/-- Reading the statement asks for a name: it makes a difference what the resolver says there. A
resolver that is asked always makes one, since the cause it fails with is passed on. -/
def AsksFor (m : Mnemonic) (operands : List Token) (name : String) : Prop :=
  ∃ resolve resolve' : String → Except Cause UInt16,
    (∀ other, other ≠ name → resolve other = resolve' other) ∧
      parse m operands resolve ≠ parse m operands resolve'

/-- Reading the statement fails because the resolver does. -/
def FailsByResolver (m : Mnemonic) (operands : List Token)
    (resolve : String → Except Cause UInt16) (cause : Cause) : Prop :=
  ∃ name, AsksFor m operands name ∧ resolve name = .error cause

/-- Two statements are the same, apart from where they jump to. -/
inductive SameButTarget : Statement → Statement → Prop
  | side (s : Side) (length : UInt16) : SameButTarget (.side s length) (.side s length)
  | straight (i : Instruction) (h : i.jumpTarget? = none) :
      SameButTarget (.instruction i) (.instruction i)
  | jump (condition : Condition) (target target' : UInt16) :
      SameButTarget (.instruction (condition.jumpTo target))
        (.instruction (condition.jumpTo target'))

/-- Bytes of code that a statement takes. -/
def width : Statement → Nat
  | instruction i => i.width
  | side _ _ => 0

theorem SameButTarget.width_eq {s s' : Statement} (h : SameButTarget s s') :
    s.width = s'.width := by
  cases h with
  | side | straight => rfl
  | jump condition => cases condition <;> rfl

/-! ### Statements by their drafts -/

theorem parse_of_error (h : Draft.parse m operands = .error cause)
    (resolve : String → Except Cause UInt16) : parse m operands resolve = .error cause := by
  rw [parse_eq, h]
  rfl

/-- A jump depends on what the resolver says to its target, whether it knows it or not. -/
theorem parse_of_jump (h : Draft.parse m operands = .ok (.command (.jump condition name)))
    (resolve : String → Except Cause UInt16) :
    parse m operands resolve =
      (resolve name).map fun target => .instruction (condition.jumpTo target) := by
  rw [parse_eq, h]
  rfl

/-- Reading comes to the same failure or the same statement whatever the resolver, or else it is
the reading of a jump. -/
theorem parse_cases (m : Mnemonic) (operands : List Token) :
    (∃ cause, ∀ resolve, parse m operands resolve = .error cause) ∨
      (∃ s, s.SameButTarget s ∧ ∀ resolve, parse m operands resolve = .ok s) ∨
      ∃ condition name, Draft.parse m operands = .ok (.command (.jump condition name)) := by
  match hdraft : Draft.parse m operands with
  | .error cause => exact .inl ⟨cause, parse_of_error hdraft⟩
  | .ok (.command (.jump condition name)) => exact .inr (.inr ⟨condition, name, rfl⟩)
  | .ok (.command (.plain i straight)) =>
    refine .inr (.inl ⟨.instruction i, .straight i straight, ?_⟩)
    intro resolve
    rw [parse_eq, hdraft]
    rfl
  | .ok (.side s length nonzero) =>
    refine .inr (.inl ⟨.side s length, .side s length, ?_⟩)
    intro resolve
    rw [parse_eq, hdraft]
    rfl

/-- Jumps ask for their targets. -/
theorem asksFor_of_jump (h : Draft.parse m operands = .ok (.command (.jump condition name))) :
    AsksFor m operands name := by
  -- A resolver that knows every name, and one that does not know this one.
  refine ⟨fun _ => .ok 0,
    fun other => if other = name then .error (.unknownLabel name) else .ok 0, ?_, ?_⟩
  · intro other hother
    exact (if_neg hother).symm
  · rw [parse_of_jump h, parse_of_jump h, if_pos rfl]
    exact nofun

/-- Nothing else is asked for. -/
theorem asksFor_iff : AsksFor m operands name ↔
    ∃ condition, Draft.parse m operands = .ok (.command (.jump condition name)) := by
  constructor
  · rintro ⟨resolve, resolve', hagree, hdiffer⟩
    rcases parse_cases m operands with ⟨cause, h⟩ | ⟨s, -, h⟩ | ⟨condition, target, h⟩
    · exact absurd ((h resolve).trans (h resolve').symm) hdiffer
    · exact absurd ((h resolve).trans (h resolve').symm) hdiffer
    · -- The resolvers differ at the target, so the target is where they differ.
      by_cases htarget : target = name
      · exact ⟨condition, htarget ▸ h⟩
      · rw [parse_of_jump h, parse_of_jump h, hagree target htarget] at hdiffer
        exact absurd rfl hdiffer
  · rintro ⟨condition, h⟩
    exact asksFor_of_jump h

theorem eq_of_asksFor (h : AsksFor m operands name) (h' : AsksFor m operands name') :
    name = name' := by
  obtain ⟨condition, hdraft⟩ := asksFor_iff.mp h
  obtain ⟨condition', hdraft'⟩ := asksFor_iff.mp h'
  cases hdraft.symm.trans hdraft'
  rfl

/-- A name is asked for as the last operand of a jump, with the other operands as the jump is
written with them. The answer then decides what is read. -/
theorem asksFor_iff_operands : AsksFor m operands name ↔ ∃ condition : Condition,
    m = .ofOperation (condition.jumpTo 0).operation ∧
    operands = Token.ofFields (condition.jumpTo 0) ++ [.reference name] ∧
    ∀ resolve, parse m operands resolve =
      (resolve name).map fun target => .instruction (condition.jumpTo target) := by
  constructor
  · intro hasked
    obtain ⟨condition, hdraft⟩ := asksFor_iff.mp hasked
    obtain ⟨hmnemonic, hoperands⟩ := Draft.eq_of_parse hdraft
    exact ⟨condition, hmnemonic.symm, hoperands.symm, parse_of_jump hdraft⟩
  · rintro ⟨condition, hmnemonic, hoperands, -⟩
    exact asksFor_iff.mpr ⟨condition, Draft.parse_eq_ok_iff.mpr ⟨hmnemonic.symm, hoperands.symm⟩⟩

/-! ### Two resolvers -/

section TwoResolvers

variable {resolve resolve' : String → Except Cause UInt16}

/-- Readings differ only if the resolvers differ at a name that is asked for. -/
theorem parse_congr (h : ∀ name, AsksFor m operands name → resolve name = resolve' name) :
    parse m operands resolve = parse m operands resolve' := by
  rcases parse_cases m operands with ⟨cause, hread⟩ | ⟨s, -, hread⟩ | ⟨condition, name, hdraft⟩
  · rw [hread, hread]
  · rw [hread, hread]
  · rw [parse_of_jump hdraft, parse_of_jump hdraft, h name (asksFor_of_jump hdraft)]

/-- What one resolver has not failed at is refused with the other as well. -/
theorem parse_eq_error_of_other (hfails : parse m operands resolve = .error cause)
    (hother : ¬ FailsByResolver m operands resolve cause) :
    parse m operands resolve' = .error cause := by
  rcases parse_cases m operands with ⟨cause', h⟩ | ⟨s, -, h⟩ | ⟨condition, name, hdraft⟩
  · rwa [h] at hfails ⊢
  · rw [h] at hfails
    cases hfails
  · -- A jump can only be refused for the resolver's reason.
    rw [parse_of_jump hdraft, map_eq_error_iff] at hfails
    exact absurd ⟨name, asksFor_of_jump hdraft, hfails⟩ hother

/-- With the name known to both resolvers, the two outcomes are the same but for a target. -/
theorem parse_sameButTarget (hknown : ∀ name, AsksFor m operands name →
      (∃ target, resolve name = .ok target) ∧ ∃ target, resolve' name = .ok target) :
    (∃ cause, parse m operands resolve = .error cause ∧
      parse m operands resolve' = .error cause) ∨
    ∃ s s', parse m operands resolve = .ok s ∧ parse m operands resolve' = .ok s' ∧
      s.SameButTarget s' := by
  rcases parse_cases m operands with ⟨cause, h⟩ | ⟨s, hsame, h⟩ | ⟨condition, name, hdraft⟩
  · exact .inl ⟨cause, h resolve, h resolve'⟩
  · exact .inr ⟨s, s, h resolve, h resolve', hsame⟩
  · obtain ⟨⟨target, htarget⟩, target', htarget'⟩ := hknown name (asksFor_of_jump hdraft)
    refine .inr ⟨_, _, ?_, ?_, .jump condition target target'⟩
    · rw [parse_of_jump hdraft, htarget]
      rfl
    · rw [parse_of_jump hdraft, htarget']
      rfl

end TwoResolvers

/-- **A resolver decides the targets of jumps and nothing else.** What is refused for another reason
than that the resolver fails is refused for the same reason with every resolver. Two resolvers that
both know the name that is asked for either refuse for one such reason, or make two statements that
take the same bytes and differ at most in where they jump to. At most one name is asked for, namely
the last operand of a jump whose other operands are as it is written with: what the resolver says
then decides. -/
theorem resolver_decides_targets_only (m : Mnemonic) (operands : List Token) :
    (∀ resolve resolve' : String → Except Cause UInt16,
      (∀ cause, parse m operands resolve = .error cause →
        ¬ FailsByResolver m operands resolve cause → parse m operands resolve' = .error cause) ∧
      ((∀ name, AsksFor m operands name →
          (∃ target, resolve name = .ok target) ∧ ∃ target, resolve' name = .ok target) →
        (∃ cause, parse m operands resolve = .error cause ∧
          parse m operands resolve' = .error cause) ∨
        ∃ s s', parse m operands resolve = .ok s ∧ parse m operands resolve' = .ok s' ∧
          s.SameButTarget s' ∧ s.width = s'.width) ∧
      ((∀ name, AsksFor m operands name → resolve name = resolve' name) →
        parse m operands resolve = parse m operands resolve')) ∧
    (∀ name name', AsksFor m operands name → AsksFor m operands name' → name = name') ∧
    ∀ name, AsksFor m operands name ↔ ∃ condition : Condition,
      m = .ofOperation (condition.jumpTo 0).operation ∧
      operands = Token.ofFields (condition.jumpTo 0) ++ [.reference name] ∧
      ∀ resolve, parse m operands resolve =
        (resolve name).map fun target => .instruction (condition.jumpTo target) := by
  refine ⟨?_, fun _ _ => eq_of_asksFor, fun _ => asksFor_iff_operands⟩
  intro resolve resolve'
  refine ⟨fun _ => parse_eq_error_of_other, ?_, parse_congr⟩
  intro hknown
  rcases parse_sameButTarget hknown with hrefused | ⟨s, s', hs, hs', hsame⟩
  · exact .inl hrefused
  · exact .inr ⟨s, s', hs, hs', hsame, hsame.width_eq⟩

/-- `JEQ A 70000 :end` is refused for its number, whether any name is known or not. `JEQ A 7 :end`
asks for `end`, and whether other names are known makes no difference to it. -/
theorem resolver_decides_targets_only_of_comparison :
    let anywhere (target : UInt16) : String → Except Cause UInt16 := fun _ => .ok target
    let nowhere : String → Except Cause UInt16 := fun name => .error (.unknownLabel name)
    let table : String → Except Cause UInt16 := fun name =>
      if name = "end" then .ok 12 else .error (.unknownLabel name)
    let large : List Token := [.register .a, .number 70000, .reference "end"]
    let small : List Token := [.register .a, .number 7, .reference "end"]
    (parse (.jumpIf .equal) large nowhere = .error (.immediateOutOfRange 70000) ∧
      ¬ FailsByResolver (.jumpIf .equal) large nowhere (.immediateOutOfRange 70000) ∧
      parse (.jumpIf .equal) large (anywhere 0) = .error (.immediateOutOfRange 70000)) ∧
    AsksFor (.jumpIf .equal) small "end" ∧
      (∃ s s', parse (.jumpIf .equal) small (anywhere 0) = .ok s ∧
        parse (.jumpIf .equal) small table = .ok s' ∧ s.SameButTarget s' ∧ s.width = s'.width) ∧
      parse (.jumpIf .equal) small table = parse (.jumpIf .equal) small (anywhere 12) ∧
      ∃ condition : Condition, ∀ resolve, parse (.jumpIf .equal) small resolve =
        (resolve "end").map fun target => .instruction (condition.jumpTo target) := by
  intro anywhere nowhere table large small
  have hrefused : parse (.jumpIf .equal) large nowhere = .error (.immediateOutOfRange 70000) := rfl
  have hother : ¬ FailsByResolver (.jumpIf .equal) large nowhere (.immediateOutOfRange 70000) :=
    fun ⟨_, _, hunknown⟩ => nomatch hunknown
  have hasked : AsksFor (.jumpIf .equal) small "end" :=
    asksFor_iff.mpr ⟨.comparison .equal .a (.immediate 7), rfl⟩
  obtain ⟨hlarge, -, -⟩ := resolver_decides_targets_only (.jumpIf .equal) large
  obtain ⟨hsmall, hone, hjump⟩ := resolver_decides_targets_only (.jumpIf .equal) small
  refine ⟨⟨hrefused, hother, (hlarge nowhere (anywhere 0)).1 _ hrefused hother⟩, hasked, ?_, ?_, ?_⟩
  · have hknown (name : String) (hname : AsksFor (.jumpIf .equal) small name) :
        (∃ target, anywhere 0 name = .ok target) ∧ ∃ target, table name = .ok target := by
      obtain rfl := hone name "end" hname hasked
      exact ⟨⟨0, rfl⟩, 12, rfl⟩
    have hboth := (hsmall (anywhere 0) table).2.1 hknown
    exact hboth.resolve_left fun ⟨_, hfails, _⟩ => nomatch hfails
  · refine (hsmall table (anywhere 12)).2.2 ?_
    intro name hname
    obtain rfl := hone name "end" hname hasked
    rfl
  · obtain ⟨condition, -, -, hread⟩ := (hjump "end").mp hasked
    exact ⟨condition, hread⟩

end TurtleVM.Assembly.Statement
