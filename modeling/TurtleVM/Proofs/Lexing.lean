import TurtleVM.Assembly
import TurtleVM.Proofs.Codec
import TurtleVM.Proofs.Numerals

/-! # Text that is read word by word

Where words are joined by single spaces and lines are closed by line feeds, cutting the text gives
these words and lines back: `words_intercalate` and `lines_flatMap`. The words of a line then become
tokens one by one, and if every line of a source becomes a line of tokens, the source is assembled
as these lines are: `assembleSource_of_mapM`.
-/

namespace TurtleVM

open Assembly

/-! ### Words -/

namespace Text

/-- The character cuts no word: it is neither a blank nor the start of a comment. -/
def isPlain (c : Char) : Bool := !isBlank c && c != ';' && c != '#'

/-- A word that stays whole wherever it stands in a line. -/
structure IsWord (word : List Char) : Prop where
  ne_nil : word ≠ []
  plain : ∀ c ∈ word, isPlain c = true

theorem isBlank_of_isPlain {c : Char} (h : isPlain c = true) : isBlank c = false := by
  simp only [isPlain, Bool.and_eq_true, Bool.not_eq_true'] at h
  exact h.1.1

theorem isWord_of_all {word : List Char} (hne : word ≠ []) (h : word.all isPlain = true) :
    IsWord word :=
  ⟨hne, List.all_eq_true.mp h⟩

theorem isWord_toString (n : Int) : IsWord (toString n).toList :=
  ⟨Literal.toString_ne_nil n, Literal.forall_mem_toString rfl (by decide) n⟩

/-- Every character of joined words is a space or stands in one of the words. -/
theorem mem_intercalate {ws : List (List Char)} {c : Char} (h : c ∈ [' '].intercalate ws) :
    c = ' ' ∨ ∃ word ∈ ws, c ∈ word := by
  induction ws with
  | nil => cases h
  | cons word ws ih =>
    cases ws with
    | nil =>
      rw [List.intercalate_singleton] at h
      exact .inr ⟨word, List.mem_cons_self .., h⟩
    | cons next ws =>
      rw [List.intercalate_cons_cons, List.append_assoc] at h
      rcases List.mem_append.mp h with hc | hc
      · exact .inr ⟨word, List.mem_cons_self .., hc⟩
      · rcases List.mem_cons.mp hc with hspace | hc
        · exact .inl hspace
        · rcases ih hc with hspace | ⟨word', hmem, hc⟩
          · exact .inl hspace
          · exact .inr ⟨word', List.mem_cons_of_mem _ hmem, hc⟩

variable {word : List Char} {ws : List (List Char)}

theorem words_of_not_blank (hne : word ≠ []) (h : ∀ c ∈ word, isBlank c = false) :
    words word = [word] := by
  have hsplit : word.splitOnP isBlank = [word] := List.splitOnP_eq_singleton h
  rw [words, hsplit]
  simp [hne]

theorem words_of_isWord (h : IsWord word) : words word = [word] :=
  words_of_not_blank h.ne_nil fun c hc => isBlank_of_isPlain (h.plain c hc)

/-- A blank separates words and belongs to none. -/
theorem words_append_blank {c : Char} (hblank : isBlank c = true) (before after : List Char) :
    words (before ++ c :: after) = words before ++ words after := by
  rw [words, List.splitOnP_append_cons before after hblank, List.filter_append]
  rfl

theorem words_append_space (h : IsWord word) (text : List Char) :
    words (word ++ ' ' :: text) = word :: words text := by
  rw [words_append_blank rfl, words_of_isWord h]
  rfl

/-- Words joined by spaces are found again. -/
theorem words_intercalate (h : ∀ word ∈ ws, IsWord word) : words ([' '].intercalate ws) = ws := by
  induction ws with
  | nil => rfl
  | cons word ws ih =>
    have hword := h word (List.mem_cons_self ..)
    cases ws with
    | nil =>
      rw [List.intercalate_singleton]
      exact words_of_isWord hword
    | cons next ws =>
      rw [List.intercalate_cons_cons, List.append_assoc]
      show words (word ++ ' ' :: [' '].intercalate (next :: ws)) = _
      rw [words_append_space hword, ih fun word' hmem => h word' (List.mem_cons_of_mem _ hmem)]

/-! ### Lines -/

/-- The text of a line without breaks: besides spaces it has only characters that cut no word. -/
def IsLine (line : List Char) : Prop := ∀ c ∈ line, c = ' ' ∨ isPlain c = true

theorem isLine_intercalate (h : ∀ word ∈ ws, IsWord word) : IsLine ([' '].intercalate ws) := by
  intro c hc
  rcases mem_intercalate hc with hspace | ⟨word, hword, hc⟩
  · exact .inl hspace
  · exact .inr ((h word hword).plain c hc)

theorem IsLine.not_mem {line : List Char} (h : IsLine line) {c : Char} (hspace : c ≠ ' ')
    (hplain : isPlain c = false) : c ∉ line := by
  intro hc
  rcases h c hc with heq | htrue
  · exact hspace heq
  · rw [htrue] at hplain
    cases hplain

/-- Lines closed by line feeds are found again. -/
theorem lines_flatMap {ls : List (List Char)} (h : ∀ line ∈ ls, IsLine line) :
    lines (ls.flatMap (· ++ ['\n'])) = ls := by
  have hsplit : (ls.flatMap (· ++ ['\n'])).splitOn '\n' = ls ++ [[]] := by
    induction ls with
    | nil => rfl
    | cons line ls ih =>
      have hline : '\n' ∉ line := (h line (List.mem_cons_self ..)).not_mem (by decide) rfl
      rw [List.flatMap_cons, List.append_assoc]
      show (line ++ '\n' :: ls.flatMap (· ++ ['\n'])).splitOn '\n' = _
      rw [List.splitOn_append_cons_self_of_not_mem hline,
        ih fun line' hmem => h line' (List.mem_cons_of_mem _ hmem)]
      rfl
  have hreturn : ls.map dropReturn = ls := by
    conv => rhs; rw [← List.map_id ls]
    refine List.map_congr_left fun line hline => ?_
    have hreturn : '\r' ∉ line := (h line hline).not_mem (by decide) rfl
    rw [dropReturn, if_neg fun hlast => hreturn (List.mem_of_getLast? hlast)]
    rfl
  -- Behind the last line feed stands nothing, which is no line.
  simp only [lines, hsplit, List.dropLast_concat, List.getLast?_concat, hreturn]
  simp

end Text

/-! ### Tokens of words -/

namespace Assembly

namespace Token

variable {word name : List Char}

theorem beforeColon?_append (name : List Char) : beforeColon? (name ++ [':']) = some name := by
  simp [beforeColon?]

theorem beforeColon?_eq_none (h : ':' ∉ word) : beforeColon? word = none := by
  rw [beforeColon?, if_neg]
  intro hlast
  exact h (List.mem_of_getLast? hlast)

theorem labelName_eq_ok (hne : name ≠ []) (hcolon : ':' ∉ name) :
    labelName name = .ok (String.ofList name) := by
  rw [labelName, if_neg]
  intro h
  rcases h with h | h
  · exact hne h
  · exact hcolon h

theorem ofLeadingWord_definition (hne : name ≠ []) (hcolon : ':' ∉ name) :
    ofLeadingWord (name ++ [':']) = .ok (.definition (String.ofList name)) := by
  rw [ofLeadingWord, beforeColon?_append]
  exact bind_eq_ok.mpr ⟨_, labelName_eq_ok hne hcolon, rfl⟩

theorem ofLeadingWord_mnemonic (h : ':' ∉ word) :
    ofLeadingWord word = .ok (.mnemonic (String.ofList word)) := by
  rw [ofLeadingWord, beforeColon?_eq_none h]
  rfl

theorem ofOperandWord_register (r : Register) :
    ofOperandWord r.text.toList = .ok (.register r) := by
  cases r <;> rfl

theorem colon_not_mem_toString (n : Int) : ':' ∉ (toString n).toList := by
  intro h
  have hne := Text.Literal.forall_mem_toString (p := (· != ':')) rfl (by decide) n _ h
  cases hne

theorem looksNumeric_toString (n : Int) : looksNumeric (toString n).toList = true := by
  have hall := Text.Literal.forall_mem_toString (p := fun c => c.isDigit || c == '-') rfl
    (by decide) n
  unfold looksNumeric
  cases htext : (toString n).toList with
  | nil => exact absurd htext (Text.Literal.toString_ne_nil n)
  | cons c rest => exact hall c (htext ▸ List.mem_cons_self ..)

/-- No register is named by a digit. -/
theorem ofName?_toString (n : Int) : Register.ofName? (toString n).toList = none := by
  have hall := Text.Literal.forall_mem_toString (p := fun c => (Register.ofName? [c]).isNone) rfl
    (by decide) n
  generalize (toString n).toList = word at hall
  match word with
  | [c] => exact Option.isNone_iff_eq_none.mp (hall c (List.mem_singleton.mpr rfl))
  | [] => rfl
  | _ :: _ :: _ => rfl

/-- A number is read from its decimal text. -/
theorem ofOperandWord_number {n : Int} (hleast : Text.Literal.least < n)
    (hgreatest : n ≤ Text.Literal.greatest) :
    ofOperandWord (toString n).toList = .ok (.number n) := by
  have hparse := Text.Literal.parse?_toString hleast hgreatest
  simp only [ofOperandWord, beforeColon?_eq_none (colon_not_mem_toString n), ofName?_toString,
    looksNumeric_toString, hparse]
  rfl

/-- A name is read as such unless it looks like a register or a number. -/
theorem ofOperandWord_reference (hne : name ≠ []) (hcolon : ':' ∉ name)
    (hregister : Register.ofName? name = none) (hnumber : looksNumeric name = false) :
    ofOperandWord name = .ok (.reference (String.ofList name)) := by
  simp only [ofOperandWord, beforeColon?_eq_none hcolon, hregister, hnumber]
  exact bind_eq_ok.mpr ⟨_, labelName_eq_ok hne hcolon, rfl⟩

end Token

/-! ### Lines of tokens -/

namespace Line

variable {room : Nat} {word name : List Char} {ws : List (List Char)}

/-- After the mnemonic, words that fit are read one by one. -/
theorem lexWords_true (h : ws.length ≤ room) :
    lexWords room true ws = ws.mapM Token.ofOperandWord := by
  induction ws generalizing room with
  | nil => rw [lexWords, List.mapM_nil]
  | cons word ws ih =>
    cases room with
    | zero => cases h
    | succ room =>
      have hrest := ih (Nat.le_of_succ_le_succ h)
      rw [List.mapM_cons, lexWords, if_pos rfl]
      simp only [Bool.true_or, hrest]

/-- The first word that ends in no colon is the mnemonic. -/
theorem lexWords_mnemonic (hcolon : ':' ∉ word) (h : ws.length ≤ room) :
    lexWords (room + 1) false (word :: ws) =
      (ws.mapM Token.ofOperandWord).map (.mnemonic (String.ofList word) :: ·) := by
  rw [lexWords, if_neg (by decide), Token.ofLeadingWord_mnemonic hcolon, ok_bind]
  show (lexWords room true ws >>= fun tokens => _) = _
  rw [lexWords_true h]
  rfl

/-- Before the mnemonic, a name with a colon is a definition. -/
theorem lexWords_definition (hne : name ≠ []) (hcolon : ':' ∉ name) :
    lexWords (room + 1) false ((name ++ [':']) :: ws) =
      (lexWords room false ws).map (.definition (String.ofList name) :: ·) := by
  rw [lexWords, if_neg (by decide), Token.ofLeadingWord_definition hne hcolon, ok_bind]
  rfl

/-- The text of a line without a comment mark is read whole. -/
theorem withoutComment_intercalate (h : ∀ word ∈ ws, Text.IsWord word) :
    withoutComment ([' '].intercalate ws) = [' '].intercalate ws := by
  have hall : ∀ c ∈ [' '].intercalate ws, (c != ';' && c != '#') = true := by
    intro c hc
    rcases Text.isLine_intercalate h c hc with rfl | hplain
    · rfl
    · simp only [Text.isPlain, Bool.and_eq_true] at hplain
      simp [hplain.1.2, hplain.2]
  have htake : withoutComment ([' '].intercalate ws ++ []) = _ :=
    List.takeWhile_append_of_pos hall
  rwa [List.append_nil, List.takeWhile_nil, List.append_nil] at htake

end Line

/-! ### Written lines -/

/-- A line both ways: the words that it is written with, and the tokens that they are read as. -/
structure WrittenLine where
  words : List (List Char)
  tokens : List Token
  isWord : ∀ word ∈ words, Text.IsWord word
  lexed : Line.lexWords maxTokens false words = .ok tokens

namespace WrittenLine

/-- The words of a line joined by spaces. -/
def text (line : WrittenLine) : List Char := [' '].intercalate line.words

/-- Lines with their numbers, the first one with the given number. -/
def numbered : Nat → List WrittenLine → List Line
  | _, [] => []
  | number, line :: lines => ⟨number, line.tokens⟩ :: numbered (number + 1) lines

/-- The source that lines make up, each closed by a line feed. -/
def source (lines : List WrittenLine) : List Char := (lines.map text).flatMap (· ++ ['\n'])

/-- What is written is read. -/
theorem lex_text (number : Nat) (line : WrittenLine) :
    Line.lex number line.text = .ok ⟨number, line.tokens⟩ := by
  rw [Line.lex, text, Line.withoutComment_intercalate line.isWord,
    Text.words_intercalate line.isWord, line.lexed]

theorem isLine_text (line : WrittenLine) : Text.IsLine line.text :=
  Text.isLine_intercalate line.isWord

theorem lines_source (lines : List WrittenLine) : Text.lines (source lines) = lines.map text := by
  apply Text.lines_flatMap
  intro line hline
  obtain ⟨line, -, rfl⟩ := List.mem_map.mp hline
  exact line.isLine_text

theorem mapM_lex (number : Nat) (lines : List WrittenLine) :
    ((lines.map text).zipIdx number).mapM (fun (text, number) => Line.lex number text) =
      .ok (numbered number lines) := by
  induction lines generalizing number with
  | nil => rfl
  | cons line lines ih =>
    rw [List.map_cons, List.zipIdx_cons, List.mapM_cons]
    exact bind_eq_ok.mpr ⟨_, lex_text number line, bind_eq_ok.mpr ⟨_, ih (number + 1), rfl⟩⟩

end WrittenLine

/-! ### Sources whose lines can be read -/

section Sources

variable {α : Type} {read : α → Except Error Line} {items : List α} {lines : List Line}

theorem layOutAll_of_mapM (h : items.mapM read = .ok lines) (l : Layout) :
    layOutAll read items l = layOutAll .ok lines l := by
  induction items generalizing lines l with
  | nil =>
    obtain rfl := pure_eq_ok.mp h
    rfl
  | cons item items ih =>
    rw [List.mapM_cons] at h
    obtain ⟨line, hline, h⟩ := bind_eq_ok.mp h
    obtain ⟨rest, hrest, h⟩ := bind_eq_ok.mp h
    obtain rfl := pure_eq_ok.mp h
    simp only [layOutAll, hline]
    split
    · rename_i l' _
      exact ih hrest l'
    · rfl

theorem emitAll_of_mapM (h : items.mapM read = .ok lines) (e : Emission) :
    emitAll read items e = emitAll .ok lines e := by
  induction items generalizing lines e with
  | nil =>
    obtain rfl := pure_eq_ok.mp h
    rfl
  | cons item items ih =>
    rw [List.mapM_cons] at h
    obtain ⟨line, hline, h⟩ := bind_eq_ok.mp h
    obtain ⟨rest, hrest, h⟩ := bind_eq_ok.mp h
    obtain rfl := pure_eq_ok.mp h
    simp only [emitAll, hline]
    split
    · rename_i e' _
      exact ih hrest e'
    · rfl

/-- If every line of a source can be read, the source is assembled as the lines read. -/
theorem assembleSource_of_mapM {source : List Char} (capacity : Nat) (buffer : Bytes)
    (h : (sourceLines source).mapM (fun (text, number) => Line.lex number text) = .ok lines) :
    assembleSource capacity source buffer = assemble capacity lines buffer := by
  unfold assembleSource assemble assembleWith
  rw [layOutAll_of_mapM h]
  simp only [emitAll_of_mapM h]

/-- The source of written lines is assembled as their tokens are. -/
theorem assembleSource_source (capacity : Nat) (lines : List WrittenLine) (buffer : Bytes) :
    assembleSource capacity (WrittenLine.source lines) buffer =
      assemble capacity (WrittenLine.numbered 1 lines) buffer := by
  apply assembleSource_of_mapM
  rw [sourceLines, WrittenLine.lines_source]
  exact WrittenLine.mapM_lex 1 lines

end Sources

end Assembly

end TurtleVM
