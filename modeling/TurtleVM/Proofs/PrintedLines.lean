import TurtleVM.Proofs.LineGrammar

/-! # Printed lines are read back

A line of tokens is printed word by word, with any blanks between the words (`Joins`). The lexer
reads such a text as the same tokens, whatever the names of the labels look like, and all lines that
it accepts have the form of a line that can be printed (`Formed`). Only the decimal text of the
least number cannot be read. The main result is `printed_lines_are_read_back`.
-/

namespace TurtleVM

open Assembly

/-! ### Joined words -/

namespace Text

/-- The text has the words in order, and a run of blanks between any two neighbours. -/
inductive Joins : List (List Char) → List Char → Prop
  | nil : Joins [] []
  | single (word : List Char) : Joins [word] word
  | cons (word gap : List Char) {text : List Char} {ws : List (List Char)} (hne : gap ≠ [])
      (hgap : AllBlank gap) (hws : ws ≠ []) (hrest : Joins ws text) :
      Joins (word :: ws) (word ++ gap ++ text)

end Text

namespace Assembly

open Text (IsWord EndsInColon)

namespace Line

variable {text word : List Char} {ws : List (List Char)}

/-- The words of joined words are these words. -/
theorem words_of_joins (h : Text.Joins ws text) (hws : ∀ word ∈ ws, IsWord word) :
    words text = ws := by
  induction h with
  | nil => rfl
  | single word =>
    have hword := hws word (List.mem_singleton_self word)
    rw [words, withoutComment_of_unmarked (unmarked_of_isWord hword), Text.words_of_isWord hword]
  | cons word gap hne hgap _ _ ih =>
    obtain ⟨hword, hrest⟩ := List.forall_mem_cons.mp hws
    rw [words_append_run (unmarked_of_isWord hword) hgap (.inl hne), Text.words_of_isWord hword,
      ih hrest]
    rfl

theorem isWord_of_mem_words (hword : word ∈ words text) : IsWord word := by
  obtain ⟨content, comment, -, hcontent, -, hcuts⟩ := cutsInto_iff.mpr (rfl : words text = _)
  obtain ⟨hne, hall⟩ := hcuts.word_cases hword
  refine ⟨hne, fun c hc => ?_⟩
  obtain ⟨hmem, hblank⟩ := hall c hc
  exact isPlain_eq_true_iff.mpr ⟨hblank, hcontent c hmem⟩

end Line

/-! ### Tokens as they are printed -/

namespace Token

/-- The word that a token is printed as. -/
def printed : Token → List Char
  | definition name => name.toList ++ [':']
  | mnemonic word => word.toList
  | register r => [r.letter]
  | number value => (toString value).toList
  | reference name => name.toList ++ [':']

/-- The name is a word without colons. -/
def IsLabel (name : String) : Prop := IsWord name.toList ∧ ':' ∉ name.toList

/-- The token can be an operand. -/
inductive IsOperand : Token → Prop
  | register (r : Register) : IsOperand (.register r)
  | number {value : Int} (hfits : Text.Literal.Fits value) : IsOperand (.number value)
  | reference {name : String} (hname : IsLabel name) : IsOperand (.reference name)

end Token

/-- Definitions come first, and then perhaps a mnemonic with operands. -/
inductive Formed : List Token → Prop
  | nil : Formed []
  | definition {name : String} {tokens : List Token} (hname : Token.IsLabel name)
      (htokens : Formed tokens) : Formed (.definition name :: tokens)
  | mnemonic {word : String} {operands : List Token} (hword : IsWord word.toList)
      (hcolon : ¬ EndsInColon word.toList) (hoperands : ∀ token ∈ operands, token.IsOperand) :
      Formed (.mnemonic word :: operands)

namespace Token

variable {token : Token} {name : String} {word : List Char} {tokens : List Token}

theorem IsLabel.isName (h : IsLabel name) : IsName name.toList := ⟨h.1.ne_nil, h.2⟩

theorem isLabel_ofList (hname : IsName word) (hplain : ∀ c ∈ word, Text.isPlain c = true) :
    IsLabel (String.ofList word) := by
  rw [IsLabel, String.toList_ofList]
  exact ⟨⟨hname.1, hplain⟩, hname.2⟩

theorem IsLabel.isWord_append_colon (h : IsLabel name) : IsWord (name.toList ++ [':']) := by
  refine ⟨List.append_ne_nil_of_right_ne_nil _ (List.cons_ne_nil ':' []), fun c hc => ?_⟩
  rcases List.mem_append.mp hc with hc | hc
  · exact h.1.plain c hc
  · rw [List.mem_singleton.mp hc]
    rfl

theorem IsOperand.isWord_printed (h : token.IsOperand) : IsWord token.printed := by
  cases h with
  | register r => cases r <;> exact Text.isWord_of_all (List.cons_ne_nil _ []) rfl
  | number => exact Text.isWord_toString _
  | reference hname => exact hname.isWord_append_colon

/-- An operand is read from its printed word, unless it is the least number. -/
theorem IsOperand.ofOperandWord_printed (h : token.IsOperand)
    (hleast : token ≠ .number Text.Literal.least) : ofOperandWord token.printed = .ok token := by
  cases h with
  | register r => exact OperandReads.eq (.register (.inl rfl))
  | @number value hfits =>
    have hne : value ≠ Text.Literal.least := fun hvalue => hleast (congrArg _ hvalue)
    exact ofOperandWord_number (Int.lt_iff_le_and_ne.mpr ⟨hfits.1, hne.symm⟩) hfits.2
  | @reference name hname =>
    -- The colon makes it a reference, also where the name is the letter of a register or a number.
    have hread := OperandReads.eq (.marked hname.isName)
    rwa [String.ofList_toList] at hread

/-- Every operand that is read from a word can be printed. -/
theorem isOperand_of_ofOperandWord (hword : IsWord word) (h : ofOperandWord word = .ok token) :
    token.IsOperand := by
  cases ofOperandWord_eq_iff.mp h with
  | marked hname =>
    exact .reference (isLabel_ofList hname fun c hc => hword.plain c (List.mem_append_left _ hc))
  | register => exact .register _
  | number _ _ _ hn => exact .number (Text.Literal.fits_of_parse? hn)
  | name _ _ _ hname => exact .reference (isLabel_ofList hname hword.plain)

end Token

/-! ### Lines as they are printed -/

section Formed

variable {tokens : List Token} {room : Nat} {ws : List (List Char)}

theorem Formed.isWord_printed (h : Formed tokens) :
    ∀ word ∈ tokens.map Token.printed, IsWord word := by
  induction h with
  | nil => exact fun word hword => absurd hword List.not_mem_nil
  | definition hname _ ih =>
    exact List.forall_mem_cons.mpr ⟨hname.isWord_append_colon, ih⟩
  | mnemonic hword _ hoperands =>
    refine List.forall_mem_cons.mpr ⟨hword, ?_⟩
    exact List.forall_mem_map.mpr fun token htoken => (hoperands token htoken).isWord_printed

theorem mapM_ofOperandWord_printed (hoperands : ∀ token ∈ tokens, token.IsOperand)
    (hleast : .number Text.Literal.least ∉ tokens) :
    (tokens.map Token.printed).mapM Token.ofOperandWord = .ok tokens := by
  induction tokens with
  | nil => rfl
  | cons token tokens ih =>
    obtain ⟨htoken, hrest⟩ := List.forall_mem_cons.mp hoperands
    have hne : token ≠ .number Text.Literal.least := (List.ne_of_not_mem_cons hleast).symm
    rw [List.map_cons, List.mapM_cons, htoken.ofOperandWord_printed hne, ok_bind,
      ih hrest (List.not_mem_of_not_mem_cons hleast)]
    rfl

/-- The printed words of a line are read as its tokens. -/
theorem Formed.lexWords_printed (h : Formed tokens) (hroom : tokens.length ≤ room)
    (hleast : .number Text.Literal.least ∉ tokens) :
    Line.lexWords room false (tokens.map Token.printed) = .ok tokens := by
  induction h generalizing room with
  | nil =>
    rw [List.map_nil, Line.lexWords]
    rfl
  | @definition name tokens hname _ ih =>
    obtain ⟨left, rfl⟩ := Nat.exists_eq_add_one_of_ne_zero (Nat.ne_zero_of_lt hroom)
    have hrest := ih (Nat.le_of_succ_le_succ hroom) (List.not_mem_of_not_mem_cons hleast)
    rw [List.map_cons, Token.printed, Line.lexWords_definition hname.1.ne_nil hname.2, hrest,
      String.ofList_toList]
    rfl
  | @mnemonic word operands hword hcolon hoperands =>
    obtain ⟨left, rfl⟩ := Nat.exists_eq_add_one_of_ne_zero (Nat.ne_zero_of_lt hroom)
    have hlength : (operands.map Token.printed).length ≤ left := by
      rw [List.length_map]
      exact Nat.le_of_succ_le_succ hroom
    refine Line.lexWords_cons_eq_ok_iff.mpr ⟨left, .mnemonic word, operands, rfl, ?_, ?_, rfl⟩
    · have hread := Token.ofLeadingWord_of_not_endsInColon hcolon
      rwa [String.ofList_toList] at hread
    · -- Behind the mnemonic a word is read apart from its neighbours.
      have hread := mapM_ofOperandWord_printed hoperands (List.not_mem_of_not_mem_cons hleast)
      exact (Line.lexWords_true hlength).trans hread

theorem isOperand_of_lexWords (hws : ∀ word ∈ ws, IsWord word)
    (h : Line.lexWords room true ws = .ok tokens) : ∀ token ∈ tokens, token.IsOperand := by
  induction ws generalizing room tokens with
  | nil =>
    rw [Line.lexWords, pure_eq_ok] at h
    subst h
    exact fun token htoken => absurd htoken List.not_mem_nil
  | cons word ws ih =>
    obtain ⟨hword, hothers⟩ := List.forall_mem_cons.mp hws
    obtain ⟨left, token, rest, -, htoken, hrest, rfl⟩ := Line.lexWords_cons_eq_ok_iff.mp h
    exact List.forall_mem_cons.mpr
      ⟨Token.isOperand_of_ofOperandWord hword htoken, ih hothers hrest⟩

/-- Tokens that are read from words have the form of a line. -/
theorem formed_of_lexWords (hws : ∀ word ∈ ws, IsWord word)
    (h : Line.lexWords room false ws = .ok tokens) : Formed tokens := by
  induction ws generalizing room tokens with
  | nil =>
    rw [Line.lexWords, pure_eq_ok] at h
    subst h
    exact .nil
  | cons word ws ih =>
    obtain ⟨hword, hothers⟩ := List.forall_mem_cons.mp hws
    obtain ⟨left, token, rest, -, htoken, hrest, rfl⟩ := Line.lexWords_cons_eq_ok_iff.mp h
    cases Token.ofLeadingWord_eq_iff.mp htoken with
    | definition hname =>
      refine .definition (Token.isLabel_ofList hname fun c hc => ?_) (ih hothers hrest)
      exact hword.plain c (List.mem_append_left _ hc)
    | mnemonic hcolon =>
      have hsame : (String.ofList word).toList = word := String.toList_ofList
      refine .mnemonic ?_ ?_ (isOperand_of_lexWords hothers hrest)
      · rwa [hsame]
      · rwa [hsame]

end Formed

namespace Line

variable {number : Nat} {text : List Char} {tokens : List Token} {line : Line}

theorem formed_of_lex (h : lex number text = .ok line) : Formed line.tokens :=
  formed_of_lexWords (fun _ => isWord_of_mem_words) (lex_eq_ok_iff.mp h).1

theorem length_tokens_le_of_lex (h : lex number text = .ok line) : line.tokens.length ≤ 8 := by
  have htokens : lexWords 8 (hasMnemonic []) (words text) = .ok line.tokens :=
    (lex_eq_ok_iff.mp h).1
  obtain ⟨hroom, hlength, -⟩ := readsAt_of_lexWords htokens
  exact hlength.trans_le hroom

theorem lex_of_joins (hform : Formed tokens) (hroom : tokens.length ≤ 8)
    (hleast : .number Text.Literal.least ∉ tokens)
    (htext : Text.Joins (tokens.map Token.printed) text) :
    lex number text = .ok ⟨number, tokens⟩ := by
  refine lex_eq_ok_iff.mpr ⟨?_, rfl⟩
  rw [words_of_joins htext hform.isWord_printed]
  exact hform.lexWords_printed hroom hleast

/-- A line can have the least number, which takes a mark and a minus behind it. -/
theorem exists_lex_least (number : Nat) : ∃ text line, lex number text = .ok line ∧
    .number Text.Literal.least ∈ line.tokens := by
  have htokens : lexWords maxTokens false (words "STO A 0x-8000000000000000".toList) =
      .ok [.mnemonic "STO", .register .a, .number Text.Literal.least] := by
    decide +kernel
  refine ⟨_, ⟨number, _⟩, lex_eq_ok_iff.mpr ⟨htokens, rfl⟩, ?_⟩
  simp

end Line

/-- **Printing tokens and reading them again gives the tokens back**, whatever blanks stand between
the words. All lines that can be read have the form that is asked for, but their numbers can include
the least. Without it, a line that is read, printed and read again stays the same. -/
theorem printed_lines_are_read_back (number : Nat) :
    (∀ tokens text, Formed tokens → tokens.length ≤ 8 →
      .number Text.Literal.least ∉ tokens → Text.Joins (tokens.map Token.printed) text →
        Line.lex number text = .ok ⟨number, tokens⟩) ∧
    (∀ text line, Line.lex number text = .ok line →
      Formed line.tokens ∧ line.tokens.length ≤ 8) ∧
    (∃ text line, Line.lex number text = .ok line ∧
      .number Text.Literal.least ∈ line.tokens) ∧
    ∀ text text' line, Line.lex number text = .ok line →
      .number Text.Literal.least ∉ line.tokens →
      Text.Joins (line.tokens.map Token.printed) text' →
        Line.lex number text' = Line.lex number text := by
  refine ⟨?_, ?_, ?_, ?_⟩
  · intro tokens text hform hroom hleast htext
    exact Line.lex_of_joins hform hroom hleast htext
  · intro text line h
    exact ⟨Line.formed_of_lex h, Line.length_tokens_le_of_lex h⟩
  · exact Line.exists_lex_least number
  · intro text text' line h hleast htext'
    rw [h, Line.lex_of_joins (Line.formed_of_lex h) (Line.length_tokens_le_of_lex h) hleast htext',
      ← (Line.lex_eq_ok_iff.mp h).2]

/-- Labels that look like a register or a number are read back as labels. -/
theorem printed_lines_are_read_back_of_lookalikes :
    let tokens := [.definition "A", .mnemonic "x:y", .register .h, .number (-5), .reference "-7"]
    let text := "A:  x:y\tH \u3000-5 -7:".toList
    Formed tokens ∧ Text.Joins (tokens.map Token.printed) text ∧
      Line.lex 3 text = .ok ⟨3, tokens⟩ := by
  intro tokens text
  have hform : Formed tokens := by
    refine .definition ⟨Text.isWord_of_all (by decide) (by decide), by decide⟩ ?_
    refine .mnemonic (Text.isWord_of_all (by decide) (by decide)) (by decide) ?_
    intro token htoken
    simp only [List.mem_cons, List.not_mem_nil, or_false] at htoken
    rcases htoken with rfl | rfl | rfl
    · exact .register .h
    · exact .number (by decide)
    · exact .reference ⟨Text.isWord_of_all (by decide) (by decide), by decide⟩
  have htext : Text.Joins (tokens.map Token.printed) text := by
    have hcut : text = "A:".toList ++ "  ".toList ++ ("x:y".toList ++ "\t".toList ++
        ("H".toList ++ " \u3000".toList ++ ("-5".toList ++ " ".toList ++ "-7:".toList))) := by
      decide
    rw [hcut]
    refine .cons _ _ (by decide) (by decide) (by decide) ?_
    refine .cons _ _ (by decide) (by decide) (by decide) ?_
    refine .cons _ _ (by decide) (by decide) (by decide) ?_
    refine .cons _ _ (by decide) (by decide) (by decide) ?_
    exact .single _
  refine ⟨hform, htext, ?_⟩
  exact (printed_lines_are_read_back 3).1 tokens text hform (by decide) (by decide) htext

end Assembly

end TurtleVM
