import Mathlib.Data.List.TakeWhile
import TurtleVM.Proofs.Lexing

/-! # The words of a line

A line is read for its words alone: what stands before its first comment mark, cut at blanks. This
file tells which words a line has that is put together from pieces, `Line.words_append_run` around
a run of blanks and `StandsAlone.words_eq` around a single word. It also tells what becomes of the
tokens of a line when one of its words is respelled. Only the mnemonic token changes if it is the
mnemonic word, and no token does if it is the letter of a register.
-/

namespace TurtleVM

open Assembly

/-! ### Words around blanks -/

namespace Text

/-- The text has no character but blanks. -/
def AllBlank (text : List Char) : Prop := ∀ c ∈ text, isBlank c = true

instance (text : List Char) : Decidable (AllBlank text) :=
  List.decidableBAll (fun c => isBlank c = true) text

variable {text run before after : List Char} {c : Char}

theorem words_append_of_allBlank (h : AllBlank run) (text : List Char) :
    words (run ++ text) = words text := by
  induction run with
  | nil => rfl
  | cons c run ih =>
    obtain ⟨hc, hrun⟩ := List.forall_mem_cons.mp h
    rw [List.cons_append]
    exact (words_append_blank hc [] (run ++ text)).trans (ih hrun)

/-- A run of blanks separates what is before it from what is behind it. A run of no blanks does so
only at an end. -/
theorem words_append_run (hblank : AllBlank run) (hrun : run ≠ [] ∨ before = [] ∨ after = []) :
    words (before ++ run ++ after) = words before ++ words after := by
  cases run with
  | nil =>
    rcases hrun with hne | rfl | rfl
    · exact absurd rfl hne
    · rfl
    · rw [List.append_nil, List.append_nil]
      exact (List.append_nil _).symm
  | cons c run =>
    obtain ⟨hc, htail⟩ := List.forall_mem_cons.mp hblank
    rw [List.append_assoc, List.cons_append, words_append_blank hc, words_append_of_allBlank htail]

/-! ### The case of letters -/

/-- A test of characters that does not tell `a` to `z` from `A` to `Z` tells no character from its
upper-case form. -/
theorem apply_toUpper (test : Char → Bool)
    (h : ∀ k < 26, test (Char.ofNat (97 + k)).toUpper = test (Char.ofNat (97 + k))) (c : Char) :
    test c.toUpper = test c := by
  by_cases hlower : 97 ≤ c.toNat ∧ c.toNat ≤ 122
  · obtain ⟨hlow, hhigh⟩ := hlower
    have hc : Char.ofNat (97 + (c.toNat - 97)) = c := by
      rw [Nat.add_sub_cancel' hlow, Char.ofNat_toNat]
    rw [← hc]
    exact h _ (by omega)
  · have hsame : c.toUpper = c := dif_neg hlower
    rw [hsame]

theorem isPlain_toUpper (c : Char) : isPlain c.toUpper = isPlain c :=
  apply_toUpper isPlain (by decide) c

theorem toUpper_eq_colon_iff : c.toUpper = ':' ↔ c = ':' := by
  have h : (c.toUpper == ':') = (c == ':') := apply_toUpper (· == ':') (by decide) c
  rw [← beq_iff_eq, h, beq_iff_eq]

/-- The word ends in a colon. -/
def EndsInColon (word : List Char) : Prop := word.getLast? = some ':'

instance (word : List Char) : Decidable (EndsInColon word) :=
  inferInstanceAs (Decidable (word.getLast? = some ':'))

variable {word word' : List Char}

theorem isWord_map_toUpper : IsWord (word.map Char.toUpper) ↔ IsWord word := by
  constructor
  · intro h
    refine ⟨fun hnil => h.ne_nil (List.map_eq_nil_iff.mpr hnil), fun c hc => ?_⟩
    rw [← isPlain_toUpper]
    exact h.plain _ (List.mem_map_of_mem hc)
  · intro h
    refine ⟨fun hnil => h.ne_nil (List.map_eq_nil_iff.mp hnil), fun d hd => ?_⟩
    obtain ⟨c, hc, rfl⟩ := List.mem_map.mp hd
    rw [isPlain_toUpper]
    exact h.plain c hc

theorem endsInColon_map_toUpper : EndsInColon (word.map Char.toUpper) ↔ EndsInColon word := by
  unfold EndsInColon
  rw [List.getLast?_map]
  cases word.getLast? with
  | none => simp
  | some c => simp [toUpper_eq_colon_iff]

end Text

/-! ### Words before a comment -/

namespace Assembly

namespace Line

/-- A comment starts with the character. -/
def IsMark (c : Char) : Prop := c = ';' ∨ c = '#'

instance (c : Char) : Decidable (IsMark c) := inferInstanceAs (Decidable (c = ';' ∨ c = '#'))

/-- No comment starts in the text. -/
def Unmarked (text : List Char) : Prop := ∀ c ∈ text, ¬ IsMark c

instance (text : List Char) : Decidable (Unmarked text) :=
  List.decidableBAll (fun c => ¬ IsMark c) text

/-- No word follows: the text is empty or a comment. -/
def EndsLine (text : List Char) : Prop := ∀ c ∈ text.head?, IsMark c

instance (text : List Char) : Decidable (EndsLine text) :=
  Option.decidableForallMem text.head?

/-- The words that a line is read for. -/
def words (text : List Char) : List (List Char) := Text.words (withoutComment text)

variable {text before run after word : List Char} {c : Char}

theorem beforeMark_eq_true_iff : (c != ';' && c != '#') = true ↔ ¬ IsMark c := by
  simp [IsMark]

theorem withoutComment_append (h : Unmarked before) (after : List Char) :
    withoutComment (before ++ after) = before ++ withoutComment after :=
  List.takeWhile_append_of_pos fun c hc => beforeMark_eq_true_iff.mpr (h c hc)

theorem withoutComment_of_unmarked (h : Unmarked text) : withoutComment text = text :=
  List.takeWhile_eq_self_iff.mpr fun c hc => beforeMark_eq_true_iff.mpr (h c hc)

theorem withoutComment_cons_of_isMark (h : IsMark c) (text : List Char) :
    withoutComment (c :: text) = [] :=
  List.takeWhile_cons_of_neg fun hc => beforeMark_eq_true_iff.mp hc h

theorem endsLine_cons (h : IsMark c) (text : List Char) : EndsLine (c :: text) := by
  intro d hd
  cases hd
  exact h

theorem withoutComment_of_endsLine (h : EndsLine text) : withoutComment text = [] := by
  cases text with
  | nil => rfl
  | cons c text => exact withoutComment_cons_of_isMark (h c rfl) text

/-- A text is unmarked, or it has a first mark. -/
theorem unmarked_or_exists_mark (text : List Char) : Unmarked text ∨
    ∃ before c after, text = before ++ c :: after ∧ Unmarked before ∧ IsMark c := by
  induction text with
  | nil => exact .inl fun c hc => absurd hc List.not_mem_nil
  | cons c text ih =>
    by_cases hc : IsMark c
    · exact .inr ⟨[], c, text, rfl, fun d hd => absurd hd List.not_mem_nil, hc⟩
    · rcases ih with hall | ⟨before, d, after, rfl, hbefore, hd⟩
      · exact .inl (List.forall_mem_cons.mpr ⟨hc, hall⟩)
      · exact .inr ⟨c :: before, d, after, rfl, List.forall_mem_cons.mpr ⟨hc, hbefore⟩, hd⟩

/-- Behind a mark, nothing of the text matters. -/
theorem withoutComment_append_mark (hbefore : Unmarked before) (hc : IsMark c)
    (after : List Char) : withoutComment (before ++ c :: after) = before := by
  rw [withoutComment_append hbefore, withoutComment_cons_of_isMark hc, List.append_nil]

theorem not_isMark_of_isBlank (h : Text.isBlank c = true) : ¬ IsMark c := by
  rintro (rfl | rfl) <;> cases h

theorem isPlain_eq_true_iff : Text.isPlain c = true ↔ Text.isBlank c = false ∧ ¬ IsMark c := by
  simp [Text.isPlain, IsMark, and_assoc]

theorem unmarked_of_isWord (h : Text.IsWord word) : Unmarked word :=
  fun c hc => (isPlain_eq_true_iff.mp (h.plain c hc)).2

theorem unmarked_of_allBlank (h : Text.AllBlank run) : Unmarked run :=
  fun c hc => not_isMark_of_isBlank (h c hc)

/-- Before the comment, a run of blanks separates words. A run of no blanks does so only at an
end. -/
theorem words_append_run (hbefore : Unmarked before) (hblank : Text.AllBlank run)
    (hrun : run ≠ [] ∨ before = [] ∨ EndsLine after) :
    words (before ++ run ++ after) = Text.words before ++ words after := by
  unfold words
  rw [List.append_assoc, withoutComment_append hbefore,
    withoutComment_append (unmarked_of_allBlank hblank), ← List.append_assoc]
  apply Text.words_append_run hblank
  exact hrun.imp_right (Or.imp_right withoutComment_of_endsLine)

/-- Blanks and a comment at the end of a line leave its words. -/
theorem words_append_of_endsLine (hblank : Text.AllBlank run) (hend : EndsLine after)
    (text : List Char) : words (text ++ (run ++ after)) = words text := by
  rcases unmarked_or_exists_mark text with htext | ⟨before, c, rest, rfl, hbefore, hc⟩
  · have hwords := words_append_run htext hblank (.inr (.inr hend))
    rw [List.append_assoc] at hwords
    rw [hwords, words, words, withoutComment_of_endsLine hend, withoutComment_of_unmarked htext]
    exact List.append_nil _
  · -- What is added belongs to the comment that is already there.
    rw [List.append_assoc, List.cons_append, words, withoutComment_append_mark hbefore hc, words,
      withoutComment_append_mark hbefore hc]

end Line

/-- Between the two pieces of a line the word stands as a word of its own, before any comment. -/
structure StandsAlone (before word after : List Char) : Prop where
  isWord : Text.IsWord word
  unmarked : Line.Unmarked before
  left : before.getLast?.all Text.isBlank = true
  right : after.head?.any Text.isPlain = false

namespace StandsAlone

variable {before word after : List Char}

/-- The words of a line around one of its words. -/
theorem words_eq (h : StandsAlone before word after) :
    Line.words (before ++ word ++ after) = Text.words before ++ word :: Line.words after := by
  have hword : Line.Unmarked word := Line.unmarked_of_isWord h.isWord
  -- The word ends where the piece behind it starts.
  have hright : Text.words (word ++ Line.withoutComment after) =
      word :: Text.words (Line.withoutComment after) := by
    cases after with
    | nil =>
      rw [Line.withoutComment, List.takeWhile_nil, List.append_nil, Text.words_of_isWord h.isWord]
      rfl
    | cons c after =>
      by_cases hc : Line.IsMark c
      · rw [Line.withoutComment_cons_of_isMark hc, List.append_nil,
          Text.words_of_isWord h.isWord]
        rfl
      · have hblank : Text.isBlank c = true := by
          have hplain : Text.isPlain c = false := h.right
          rw [Text.isPlain, Bool.and_assoc, Line.beforeMark_eq_true_iff.mpr hc, Bool.and_true,
            Bool.not_eq_false'] at hplain
          exact hplain
        have hcut : Line.withoutComment (c :: after) = c :: Line.withoutComment after :=
          List.takeWhile_cons_of_pos (Line.beforeMark_eq_true_iff.mpr hc)
        rw [hcut, Text.words_append_blank hblank, Text.words_of_isWord h.isWord]
        exact congrArg (word :: ·) (Text.words_append_blank hblank [] _).symm
  rw [Line.words, List.append_assoc, Line.withoutComment_append h.unmarked,
    Line.withoutComment_append hword]
  rcases List.eq_nil_or_concat before with rfl | ⟨init, c, rfl⟩
  · exact hright
  · rw [List.concat_eq_append] at h ⊢
    have hc : Text.isBlank c = true := by
      have hleft := h.left
      rwa [List.getLast?_concat, Option.all_some] at hleft
    rw [List.append_assoc, List.singleton_append,
      Text.words_append_blank hc, Text.words_append_blank hc, hright]
    exact congrArg (· ++ _) (List.append_nil _).symm

/-- Another word can stand where a word stands. -/
theorem of_isWord (h : StandsAlone before word after) {word' : List Char}
    (hword' : Text.IsWord word') : StandsAlone before word' after :=
  ⟨hword', h.unmarked, h.left, h.right⟩

end StandsAlone

/-! ### Tokens of replaced words -/

namespace Token

variable {word : List Char} {token : Token} {c : Char} {r : Register}

theorem ofLeadingWord_of_endsInColon (h : Text.EndsInColon word) :
    ofLeadingWord word = (labelName word.dropLast).map .definition := by
  unfold Text.EndsInColon at h
  rw [ofLeadingWord, beforeColon?, if_pos h]
  dsimp only
  cases labelName word.dropLast <;> rfl

theorem ofLeadingWord_of_not_endsInColon (h : ¬ Text.EndsInColon word) :
    ofLeadingWord word = .ok (.mnemonic (String.ofList word)) := by
  unfold Text.EndsInColon at h
  rw [ofLeadingWord, beforeColon?, if_neg h]
  rfl

/-- The letter of a register is read as the register, in either case. -/
theorem ofOperandWord_letter (h : c.toUpper = r.letter) :
    ofOperandWord [c] = .ok (.register r) := by
  have hcolon : ':' ∉ [c] := by
    intro hmem
    have hc : c.toUpper = ':' := Text.toUpper_eq_colon_iff.mpr (List.mem_singleton.mp hmem).symm
    rw [hc] at h
    cases r <;> cases h
  have hname : Register.ofName? [c] = some r := by
    rw [← Register.ofName?_letter r]
    cases r <;> simp [Register.ofName?, h, Register.letter]
  rw [ofOperandWord, beforeColon?_eq_none hcolon]
  simp only [hname]
  rfl

/-- The token of a word before the mnemonic or after it. -/
def ofWord (afterMnemonic : Bool) (word : List Char) : Except Cause Token :=
  if afterMnemonic then ofOperandWord word else ofLeadingWord word

theorem eq_mnemonic_of_ofWord (hcolon : ¬ Text.EndsInColon word)
    (h : ofWord false word = .ok token) : token = .mnemonic (String.ofList word) := by
  have hleading : ofLeadingWord word = .ok token := h
  rw [ofLeadingWord_of_not_endsInColon hcolon] at hleading
  exact (Except.ok.inj hleading).symm

theorem exists_definition_of_ofWord (hcolon : Text.EndsInColon word)
    (h : ofWord false word = .ok token) : ∃ label, token = .definition label := by
  have hleading : ofLeadingWord word = .ok token := h
  rw [ofLeadingWord_of_endsInColon hcolon] at hleading
  cases hlabel : labelName word.dropLast with
  | error e =>
    rw [hlabel] at hleading
    cases hleading
  | ok label =>
    rw [hlabel] at hleading
    exact ⟨label, (Except.ok.inj hleading).symm⟩

/-- No operand binds a label. -/
theorem definedName?_of_ofOperandWord (h : ofOperandWord word = .ok token) :
    token.definedName? = none := by
  unfold ofOperandWord at h
  split at h
  · obtain ⟨name, -, hname⟩ := bind_eq_ok.mp h
    cases hname
    rfl
  · split at h
    · cases h
      rfl
    · split at h
      · split at h <;> cases h
        rfl
      · obtain ⟨name, -, hname⟩ := bind_eq_ok.mp h
        cases hname
        rfl

end Token

namespace Line

variable {room : Nat} {afterMnemonic : Bool} {word word' : List Char} {c c' : Char} {r : Register}
variable {ws before after : List (List Char)} {tokens : List Token}

theorem lexWords_zero_cons : lexWords 0 afterMnemonic (word :: ws) =
    Token.ofWord afterMnemonic word >>= fun _ => .error .tooManyTokens := by
  rw [lexWords]
  cases afterMnemonic <;> rfl

theorem lexWords_succ_cons : lexWords (room + 1) afterMnemonic (word :: ws) =
    Token.ofWord afterMnemonic word >>= fun token =>
      lexWords room (afterMnemonic || token.isMnemonic) ws >>= fun rest =>
        pure (token :: rest) := by
  rw [lexWords]
  cases afterMnemonic <;> rfl

/-- Words are read by reading the first and then the others. -/
theorem lexWords_cons_eq_ok_iff : lexWords room afterMnemonic (word :: ws) = .ok tokens ↔
    ∃ left token rest, room = left + 1 ∧ Token.ofWord afterMnemonic word = .ok token ∧
      lexWords left (afterMnemonic || token.isMnemonic) ws = .ok rest ∧ tokens = token :: rest := by
  cases room with
  | zero =>
    rw [lexWords_zero_cons, bind_eq_ok]
    constructor
    · rintro ⟨_, _, h⟩
      cases h
    · rintro ⟨_, _, _, h, _⟩
      cases h
  | succ room =>
    simp only [lexWords_succ_cons, bind_eq_ok, pure_eq_ok]
    constructor
    · rintro ⟨token, htoken, rest, hrest, rfl⟩
      exact ⟨room, token, rest, rfl, htoken, hrest, rfl⟩
    · rintro ⟨_, token, rest, ⟨⟩, htoken, hrest, rfl⟩
      exact ⟨token, htoken, rest, hrest, rfl⟩

/-- Behind the mnemonic, words bind no label. -/
theorem filterMap_definedName?_of_lexWords (h : lexWords room true ws = .ok tokens) :
    tokens.filterMap Token.definedName? = [] := by
  induction ws generalizing room tokens with
  | nil =>
    rw [lexWords, pure_eq_ok] at h
    rw [← h]
    rfl
  | cons word ws ih =>
    obtain ⟨left, token, rest, -, htoken, hrest, rfl⟩ := lexWords_cons_eq_ok_iff.mp h
    rw [List.filterMap_cons_none (Token.definedName?_of_ofOperandWord htoken)]
    exact ih hrest

/-- Another word in place of the mnemonic word changes the mnemonic token and no other. -/
theorem lexWords_of_mnemonic (hbefore : ∀ w ∈ before, Text.EndsInColon w)
    (hword : ¬ Text.EndsInColon word) (hword' : ¬ Text.EndsInColon word')
    (h : lexWords room false (before ++ word :: after) = .ok tokens) :
    ∃ (names : List String) (operands : List Token),
      tokens = names.map .definition ++ .mnemonic (String.ofList word) :: operands ∧
      lexWords room false (before ++ word' :: after) =
        .ok (names.map .definition ++ .mnemonic (String.ofList word') :: operands) := by
  -- The words before it are definitions, and they are read one by one.
  induction before generalizing room tokens with
  | nil =>
    obtain ⟨left, token, operands, rfl, htoken, hoperands, rfl⟩ := lexWords_cons_eq_ok_iff.mp h
    obtain rfl := Token.eq_mnemonic_of_ofWord hword htoken
    refine ⟨[], operands, rfl, lexWords_cons_eq_ok_iff.mpr ⟨left, _, operands, rfl, ?_, ?_, rfl⟩⟩
    · exact Token.ofLeadingWord_of_not_endsInColon hword'
    · exact hoperands
  | cons w before ih =>
    obtain ⟨hw, hbefore⟩ := List.forall_mem_cons.mp hbefore
    obtain ⟨left, token, rest, rfl, htoken, hrest, rfl⟩ := lexWords_cons_eq_ok_iff.mp h
    obtain ⟨name, rfl⟩ := Token.exists_definition_of_ofWord hw htoken
    obtain ⟨names, operands, rfl, hrest'⟩ := ih hbefore hrest
    exact ⟨name :: names, operands, rfl,
      lexWords_cons_eq_ok_iff.mpr ⟨left, _, _, rfl, htoken, hrest', rfl⟩⟩

/-- Behind the mnemonic, the letter of a register can have either case. -/
theorem lexWords_of_letter (hc : c.toUpper = r.letter) (hc' : c'.toUpper = r.letter)
    (hbefore : afterMnemonic = true ∨ ∃ w ∈ before, ¬ Text.EndsInColon w)
    (h : lexWords room afterMnemonic (before ++ [c] :: after) = .ok tokens) :
    lexWords room afterMnemonic (before ++ [c'] :: after) = .ok tokens := by
  induction before generalizing room afterMnemonic tokens with
  | nil =>
    rcases hbefore with rfl | ⟨w, hw, -⟩
    · obtain ⟨left, token, rest, rfl, htoken, hrest, rfl⟩ := lexWords_cons_eq_ok_iff.mp h
      have hregister : token = .register r :=
        (Except.ok.inj ((Token.ofOperandWord_letter hc).symm.trans htoken)).symm
      subst hregister
      exact lexWords_cons_eq_ok_iff.mpr
        ⟨left, _, rest, rfl, Token.ofOperandWord_letter hc', hrest, rfl⟩
    · exact absurd hw List.not_mem_nil
  | cons w before ih =>
    obtain ⟨left, token, rest, rfl, htoken, hrest, rfl⟩ := lexWords_cons_eq_ok_iff.mp h
    refine lexWords_cons_eq_ok_iff.mpr ⟨left, token, rest, rfl, htoken, ih ?_ hrest, rfl⟩
    rcases hbefore with rfl | ⟨w', hw', hcolon⟩
    · exact .inl (Bool.true_or _)
    · rcases List.mem_cons.mp hw' with rfl | hmem
      · -- The first word is the mnemonic, unless it has been read before.
        cases afterMnemonic with
        | true => exact .inl (Bool.true_or _)
        | false =>
          obtain rfl := Token.eq_mnemonic_of_ofWord hcolon htoken
          exact .inl rfl
      · exact .inr ⟨w', hmem, hcolon⟩

end Line

end Assembly

end TurtleVM
