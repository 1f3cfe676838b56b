import TurtleVM.Proofs.LineWords

/-! # What words are read as

Which words a text has, and what a single word is read as, is said here without the functions that
find it out. A text is cut into its maximal runs of characters that are not blank (`CutsInto`). A
word is read in one of two ways: up to the mnemonic it is a definition or the mnemonic
(`LeadingReads`), behind it an operand (`OperandReads`). Each of the three relations is shown to be
the graph of the function that the lexer calls.
-/

namespace TurtleVM

open Assembly

/-! ### Cutting a text -/

namespace Text

/-- The words of a text are its maximal runs of characters that are not blank. -/
inductive CutsInto : List Char → List (List Char) → Prop
  | blank {run : List Char} (hrun : AllBlank run) : CutsInto run []
  | word (run : List Char) {word rest : List Char} {ws : List (List Char)} (hrun : AllBlank run)
      (hne : word ≠ []) (hword : ∀ c ∈ word, isBlank c = false)
      (hend : ∀ c ∈ rest.head?, isBlank c = true) (hrest : CutsInto rest ws) :
      CutsInto (run ++ word ++ rest) (word :: ws)

variable {text run word rest : List Char} {ws : List (List Char)} {c : Char}

theorem CutsInto.words_eq (h : CutsInto text ws) : words text = ws := by
  induction h with
  | blank hrun =>
    have hwords := words_append_of_allBlank hrun []
    rwa [List.append_nil] at hwords
  | @word run word rest ws hrun hne hword hend _ ih =>
    rw [List.append_assoc, words_append_of_allBlank hrun]
    cases rest with
    | nil =>
      rw [List.append_nil, words_of_not_blank hne hword, ← ih]
      rfl
    | cons c rest =>
      have hc : isBlank c = true := hend c rfl
      have hrest : words (c :: rest) = words rest := words_append_blank hc [] rest
      rw [words_append_blank hc, words_of_not_blank hne hword, ← hrest, ih]
      rfl

/-- Every word of a text is a piece of it without blanks. -/
theorem CutsInto.word_cases (h : CutsInto text ws) (hword : word ∈ ws) :
    word ≠ [] ∧ ∀ c ∈ word, c ∈ text ∧ isBlank c = false := by
  induction h with
  | blank hrun => exact absurd hword List.not_mem_nil
  | @word run first rest ws _ hne hfirst _ _ ih =>
    rcases List.mem_cons.mp hword with rfl | hmem
    · refine ⟨hne, fun c hc => ⟨?_, hfirst c hc⟩⟩
      exact List.mem_append_left rest (List.mem_append_right run hc)
    · obtain ⟨hne, hall⟩ := ih hmem
      exact ⟨hne, fun c hc => ⟨List.mem_append_right _ (hall c hc).1, (hall c hc).2⟩⟩

theorem CutsInto.cons_blank (hc : isBlank c = true) (h : CutsInto text ws) :
    CutsInto (c :: text) ws := by
  cases h with
  | blank hrun => exact .blank (List.forall_mem_cons.mpr ⟨hc, hrun⟩)
  | @word run word rest ws hrun hne hword hend hrest =>
    exact .word (c :: run) (List.forall_mem_cons.mpr ⟨hc, hrun⟩) hne hword hend hrest

/-- A character that is no blank begins a word, or makes the first word longer. -/
theorem CutsInto.exists_cons (hc : isBlank c = false) (h : CutsInto text ws) :
    ∃ ws', CutsInto (c :: text) ws' := by
  have hsingle : ∀ d ∈ [c], isBlank d = false := by
    intro d hd
    rwa [List.mem_singleton.mp hd]
  have hnone : AllBlank [] := fun d hd => absurd hd List.not_mem_nil
  -- A word of its own, if a blank comes next.
  have hapart (hend : ∀ d ∈ text.head?, isBlank d = true) : CutsInto (c :: text) ([c] :: ws) :=
    .word [] hnone (List.cons_ne_nil c []) hsingle hend h
  cases h with
  | blank hrun =>
    refine ⟨_, hapart fun d hd => hrun d ?_⟩
    exact List.mem_of_mem_head? hd
  | @word run word rest ws hrun hne hword hend hrest =>
    cases run with
    | nil =>
      exact ⟨(c :: word) :: ws, .word [] hnone (List.cons_ne_nil c word)
        (List.forall_mem_cons.mpr ⟨hc, hword⟩) hend hrest⟩
    | cons d run =>
      refine ⟨_, hapart fun d' hd' => ?_⟩
      cases hd'
      exact hrun d (List.mem_cons_self ..)

theorem exists_cutsInto (text : List Char) : ∃ ws, CutsInto text ws := by
  induction text with
  | nil => exact ⟨[], .blank fun c hc => absurd hc List.not_mem_nil⟩
  | cons c text ih =>
    obtain ⟨ws, hws⟩ := ih
    cases hc : isBlank c with
    | true => exact ⟨ws, hws.cons_blank hc⟩
    | false => exact hws.exists_cons hc

theorem cutsInto_iff : CutsInto text ws ↔ words text = ws := by
  refine ⟨CutsInto.words_eq, ?_⟩
  intro h
  obtain ⟨ws', hws'⟩ := exists_cutsInto text
  rwa [← h, hws'.words_eq]

end Text

namespace Assembly

/-! ### Reading a word -/

namespace Token

open Text (EndsInColon)

/-- The name of a label is not empty and has no colon. -/
def IsName (name : List Char) : Prop := name ≠ [] ∧ ':' ∉ name

/-- The word is the letter of the register, in either case. -/
def Letters (word : List Char) (r : Register) : Prop :=
  word = [r.letter] ∨ word = [r.letter.toLower]

/-- The word starts with a digit or a minus. -/
def StartsNumber (word : List Char) : Prop := ∃ c ∈ word.head?, c.isDigit = true ∨ c = '-'

/-- What a word is read as up to the mnemonic. -/
inductive LeadingReads : List Char → Except Cause Token → Prop
  | definition {name : List Char} (hname : IsName name) :
      LeadingReads (name ++ [':']) (.ok (.definition (String.ofList name)))
  | malformed {name : List Char} (hname : ¬ IsName name) :
      LeadingReads (name ++ [':']) (.error .malformedLabel)
  | mnemonic {word : List Char} (hcolon : ¬ EndsInColon word) :
      LeadingReads word (.ok (.mnemonic (String.ofList word)))

/-- What a word is read as behind the mnemonic. A colon at the end comes before all, then the
letters of registers, then numbers. -/
inductive OperandReads : List Char → Except Cause Token → Prop
  | marked {name : List Char} (hname : IsName name) :
      OperandReads (name ++ [':']) (.ok (.reference (String.ofList name)))
  | malformed {name : List Char} (hname : ¬ IsName name) :
      OperandReads (name ++ [':']) (.error .malformedLabel)
  | register {word : List Char} {r : Register} (hletter : Letters word r) :
      OperandReads word (.ok (.register r))
  | number {word : List Char} {n : Int} (hcolon : ¬ EndsInColon word)
      (hletter : ∀ r, ¬ Letters word r) (hstart : StartsNumber word)
      (hn : Text.Literal.parse? word = some n) : OperandReads word (.ok (.number n))
  | noNumber {word : List Char} (hcolon : ¬ EndsInColon word)
      (hletter : ∀ r, ¬ Letters word r) (hstart : StartsNumber word)
      (hn : Text.Literal.parse? word = none) : OperandReads word (.error .invalidNumber)
  | name {word : List Char} (hcolon : ¬ EndsInColon word) (hletter : ∀ r, ¬ Letters word r)
      (hstart : ¬ StartsNumber word) (hname : IsName word) :
      OperandReads word (.ok (.reference (String.ofList word)))
  | noName {word : List Char} (hcolon : ¬ EndsInColon word) (hletter : ∀ r, ¬ Letters word r)
      (hstart : ¬ StartsNumber word) (hname : ¬ IsName word) :
      OperandReads word (.error .malformedLabel)

variable {word name : List Char} {result : Except Cause Token} {r : Register}

theorem labelName_of_isName (h : IsName name) : labelName name = .ok (String.ofList name) :=
  labelName_eq_ok h.1 h.2

theorem labelName_of_not_isName (h : ¬ IsName name) : labelName name = .error .malformedLabel := by
  rw [labelName, if_pos]
  rwa [IsName, Classical.not_and_iff_not_or_not, Classical.not_not, Classical.not_not] at h

theorem endsInColon_iff : EndsInColon word ↔ ∃ name, word = name ++ [':'] :=
  List.getLast?_eq_some_iff

theorem beforeColon?_eq_none_of_not_endsInColon (h : ¬ EndsInColon word) :
    beforeColon? word = none :=
  if_neg h

theorem looksNumeric_iff : looksNumeric word = true ↔ StartsNumber word := by
  simp [looksNumeric, StartsNumber, Option.any_eq_true]

/-- A letter in either case becomes the letter of the register, and no other character does. -/
theorem letter_eq_toUpper_iff {c : Char} :
    r.letter = c.toUpper ↔ c = r.letter ∨ c = r.letter.toLower := by
  have hcases : (r.letter == c.toUpper) = (c == r.letter || c == r.letter.toLower) := by
    by_cases hlower : 97 ≤ c.toNat ∧ c.toNat ≤ 122
    · obtain ⟨hlow, hhigh⟩ := hlower
      have hall : ∀ k < 26, (r.letter == (Char.ofNat (97 + k)).toUpper) =
          (Char.ofNat (97 + k) == r.letter || Char.ofNat (97 + k) == r.letter.toLower) := by
        cases r <;> decide
      have hc : Char.ofNat (97 + (c.toNat - 97)) = c := by
        rw [Nat.add_sub_cancel' hlow, Char.ofNat_toNat]
      rw [← hc]
      exact hall _ (by omega)
    · have hsame : c.toUpper = c := dif_neg hlower
      have hne : c ≠ r.letter.toLower := by
        rintro rfl
        revert hlower
        cases r <;> decide
      rw [hsame, beq_eq_false_iff_ne.mpr hne, Bool.or_false]
      exact Bool.beq_comm
  rw [← beq_iff_eq, hcases, Bool.or_eq_true, beq_iff_eq, beq_iff_eq]

theorem ofName?_eq_some_iff : Register.ofName? word = some r ↔ Letters word r := by
  constructor
  · intro h
    match word with
    | [] => cases h
    | [c] =>
      have hletter : (r.letter == c.toUpper) = true :=
        List.find?_some (p := fun r : Register => r.letter == c.toUpper) h
      rcases letter_eq_toUpper_iff.mp (beq_iff_eq.mp hletter) with rfl | rfl
      · exact .inl rfl
      · exact .inr rfl
    | _ :: _ :: _ => cases h
  · rintro (rfl | rfl)
    · exact Register.ofName?_letter r
    · cases r <;> rfl

theorem not_endsInColon_of_letters (h : Letters word r) : ¬ EndsInColon word := by
  rcases h with rfl | rfl <;> cases r <;> decide

theorem ofLeadingWord_append_colon (name : List Char) :
    ofLeadingWord (name ++ [':']) = (labelName name).map .definition := by
  rw [ofLeadingWord_of_endsInColon (endsInColon_iff.mpr ⟨name, rfl⟩), List.dropLast_concat]

theorem ofOperandWord_append_colon (name : List Char) :
    ofOperandWord (name ++ [':']) = (labelName name).map .reference := by
  rw [ofOperandWord, beforeColon?_append]
  dsimp only
  cases labelName name <;> rfl

theorem LeadingReads.eq (h : LeadingReads word result) : ofLeadingWord word = result := by
  cases h with
  | definition hname =>
    rw [ofLeadingWord_append_colon, labelName_of_isName hname]
    rfl
  | malformed hname =>
    rw [ofLeadingWord_append_colon, labelName_of_not_isName hname]
    rfl
  | mnemonic hcolon => exact ofLeadingWord_of_not_endsInColon hcolon

theorem exists_leadingReads (word : List Char) : ∃ result, LeadingReads word result := by
  by_cases hcolon : EndsInColon word
  · obtain ⟨name, rfl⟩ := endsInColon_iff.mp hcolon
    by_cases hname : IsName name
    · exact ⟨_, .definition hname⟩
    · exact ⟨_, .malformed hname⟩
  · exact ⟨_, .mnemonic hcolon⟩

theorem ofLeadingWord_eq_iff : ofLeadingWord word = result ↔ LeadingReads word result := by
  refine ⟨?_, LeadingReads.eq⟩
  rintro rfl
  obtain ⟨result, h⟩ := exists_leadingReads word
  rwa [h.eq]

theorem OperandReads.eq (h : OperandReads word result) : ofOperandWord word = result := by
  -- The tests for a colon and for a register both fail in the last four cases.
  have hplain (hcolon : ¬ EndsInColon word) (hletter : ∀ r, ¬ Letters word r) :
      beforeColon? word = none ∧ Register.ofName? word = none := by
    refine ⟨beforeColon?_eq_none_of_not_endsInColon hcolon, ?_⟩
    exact Option.eq_none_iff_forall_ne_some.mpr fun r hr => hletter r (ofName?_eq_some_iff.mp hr)
  cases h with
  | marked hname =>
    rw [ofOperandWord_append_colon, labelName_of_isName hname]
    rfl
  | malformed hname =>
    rw [ofOperandWord_append_colon, labelName_of_not_isName hname]
    rfl
  | register hletter =>
    have hnone := beforeColon?_eq_none_of_not_endsInColon (not_endsInColon_of_letters hletter)
    simp only [ofOperandWord, hnone, ofName?_eq_some_iff.mpr hletter]
    rfl
  | number hcolon hletter hstart hn =>
    obtain ⟨hnone, hregister⟩ := hplain hcolon hletter
    simp only [ofOperandWord, hnone, hregister, looksNumeric_iff.mpr hstart, hn]
    rfl
  | noNumber hcolon hletter hstart hn =>
    obtain ⟨hnone, hregister⟩ := hplain hcolon hletter
    simp only [ofOperandWord, hnone, hregister, looksNumeric_iff.mpr hstart, hn]
    rfl
  | name hcolon hletter hstart hname =>
    obtain ⟨hnone, hregister⟩ := hplain hcolon hletter
    simp only [ofOperandWord, hnone, hregister, looksNumeric_iff, hstart,
      labelName_of_isName hname]
    rfl
  | noName hcolon hletter hstart hname =>
    obtain ⟨hnone, hregister⟩ := hplain hcolon hletter
    simp only [ofOperandWord, hnone, hregister, looksNumeric_iff, hstart,
      labelName_of_not_isName hname]
    rfl

theorem exists_operandReads (word : List Char) : ∃ result, OperandReads word result := by
  by_cases hcolon : EndsInColon word
  · obtain ⟨name, rfl⟩ := endsInColon_iff.mp hcolon
    by_cases hname : IsName name
    · exact ⟨_, .marked hname⟩
    · exact ⟨_, .malformed hname⟩
  by_cases hletter : ∃ r, Letters word r
  · obtain ⟨r, hr⟩ := hletter
    exact ⟨_, .register hr⟩
  have hletter : ∀ r, ¬ Letters word r := not_exists.mp hletter
  by_cases hstart : StartsNumber word
  · cases hn : Text.Literal.parse? word with
    | some n => exact ⟨_, .number hcolon hletter hstart hn⟩
    | none => exact ⟨_, .noNumber hcolon hletter hstart hn⟩
  · by_cases hname : IsName word
    · exact ⟨_, .name hcolon hletter hstart hname⟩
    · exact ⟨_, .noName hcolon hletter hstart hname⟩

theorem ofOperandWord_eq_iff : ofOperandWord word = result ↔ OperandReads word result := by
  refine ⟨?_, OperandReads.eq⟩
  rintro rfl
  obtain ⟨result, h⟩ := exists_operandReads word
  rwa [h.eq]

theorem LeadingReads.isMnemonic {token : Token} (h : LeadingReads word (.ok token)) :
    token.isMnemonic = !decide (EndsInColon word) := by
  cases h with
  | @definition name _ =>
    rw [decide_eq_true (endsInColon_iff.mpr ⟨name, rfl⟩)]
    rfl
  | mnemonic hcolon =>
    rw [decide_eq_false hcolon]
    rfl

end Token

end Assembly

end TurtleVM
