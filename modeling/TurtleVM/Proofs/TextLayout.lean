import Mathlib.Logic.Relation
import TurtleVM.Proofs.AssembledCode
import TurtleVM.Proofs.LineWords
import TurtleVM.Proofs.SameProgram
import TurtleVM.Proofs.SourceErrors

/-! # The layout of a source text

The image of a source does not depend on how its text is laid out. `Rearranges` lists the changes
that leave it alone: lines without words come and go, lines get comments and other blanks, some
words get other spellings, and a line that sets a side of the canvas moves. Sources that such
changes lead to each other are assembled to the same image: `layout_does_not_matter`.

Texts are related to each other as lists of lines (`SameMeaning`): whenever one can be read, so can
the other, as lines of the same program. That can be looked at for one line at a time.
-/

namespace TurtleVM.Assembly

open Text (AllBlank EndsInColon)

/-! ### Changes of one line -/

/-- The words name the same mnemonic: they differ in the case of letters, or one is `FWD` where the
other is `MOV`. -/
def SameMnemonic (word word' : List Char) : Prop :=
  word'.map Char.toUpper = word.map Char.toUpper ∨
    word.map Char.toUpper = "MOV".toList ∧ word'.map Char.toUpper = "FWD".toList

/-- A change of the text of a line that leaves what it says. -/
inductive RewritesLine : List Char → List Char → Prop
  /-- A comment is appended, also to a comment. -/
  | comment {mark : Char} (hmark : Line.IsMark mark) (text comment : List Char) :
      RewritesLine text (text ++ mark :: comment)
  /-- A run of blanks is replaced by another one. Only before the first word and behind the last one
  can there be no blanks. -/
  | blanks {before run run' after : List Char} (hbefore : Line.Unmarked before)
      (hrun : AllBlank run) (hrun' : AllBlank run')
      (hends : (run ≠ [] ∧ run' ≠ []) ∨ before = [] ∨ Line.EndsLine after) :
      RewritesLine (before ++ run ++ after) (before ++ run' ++ after)
  /-- The first word that ends in no colon is respelled. -/
  | mnemonic {before word word' after : List Char} (hword : StandsAlone before word after)
      (hlabels : ∀ w ∈ Text.words before, EndsInColon w) (hcolon : ¬ EndsInColon word)
      (hsame : SameMnemonic word word') :
      RewritesLine (before ++ word ++ after) (before ++ word' ++ after)
  /-- Behind the mnemonic, the letter of a register gets another case. -/
  | register {before after : List Char} {name name' : Char} {r : Register}
      (hword : StandsAlone before [name] after)
      (hmnemonic : ∃ w ∈ Text.words before, ¬ EndsInColon w)
      (hname : name.toUpper = r.letter) (hname' : name'.toUpper = r.letter) :
      RewritesLine (before ++ [name] ++ after) (before ++ [name'] ++ after)

/-! ### Changes of lines -/

/-- The line is blank but perhaps for a comment. -/
def IsSilent (text : List Char) : Prop :=
  ∃ run comment, text = run ++ comment ∧ AllBlank run ∧ Line.EndsLine comment

/-- The line starts with the name of a directive, with no label before it. -/
def StartsWithDirective (text : List Char) : Prop :=
  ∃ run word after s, text = run ++ word ++ after ∧ AllBlank run ∧
    StandsAlone run word after ∧ word.map Char.toUpper = (Side.text s).toList

/-- A change of the lines of a source that leaves its image. -/
inductive Rearranges : List (List Char) → List (List Char) → Prop
  /-- A line without words is inserted. -/
  | insert (before after : List (List Char)) {text : List Char} (htext : IsSilent text) :
      Rearranges (before ++ after) (before ++ text :: after)
  /-- A line is rewritten. -/
  | rewrite (before after : List (List Char)) {text text' : List Char}
      (htext : RewritesLine text text') :
      Rearranges (before ++ text :: after) (before ++ text' :: after)
  /-- A directive moves behind other lines. -/
  | move (before between after : List (List Char)) {text : List Char}
      (htext : StartsWithDirective text) :
      Rearranges (before ++ text :: between ++ after) (before ++ between ++ text :: after)

/-! ### Texts of the same meaning -/

/-- The tokens of a line of text. -/
def Line.tokensOf (text : List Char) : Except Cause (List Token) :=
  lexWords maxTokens false (words text)

/-- Texts are read as these lines, whatever their numbers. -/
def ReadTexts (texts : List (List Char)) (lines : List Line) : Prop :=
  List.Forall₂ (fun text line => Line.tokensOf text = .ok line.tokens) texts lines

/-- If the first texts can be read, the others can be read as lines of the same program. -/
def Carries (texts texts' : List (List Char)) : Prop :=
  ∀ lines, ReadTexts texts lines → ∃ lines', ReadTexts texts' lines' ∧ SameProgram lines lines'

/-- The texts are read as lines of the same program, or neither can be read. -/
def SameMeaning (texts texts' : List (List Char)) : Prop :=
  Carries texts texts' ∧ Carries texts' texts

variable {texts texts' rest rest' : List (List Char)} {text text' : List Char}
variable {lines lines' : List Line} {line : Line}

theorem exists_of_readTexts_append (h : ReadTexts (texts ++ rest) lines) :
    ∃ first second, ReadTexts texts first ∧ ReadTexts rest second ∧ lines = first ++ second := by
  induction texts generalizing lines with
  | nil => exact ⟨[], lines, .nil, h, rfl⟩
  | cons text texts ih =>
    obtain ⟨line, lines, hline, hlines, rfl⟩ := List.forall₂_cons_left_iff.mp h
    obtain ⟨first, second, hfirst, hsecond, rfl⟩ := ih hlines
    exact ⟨line :: first, second, .cons hline hfirst, hsecond, rfl⟩

theorem exists_of_readTexts_singleton (h : ReadTexts [text] lines) :
    ∃ line, Line.tokensOf text = .ok line.tokens ∧ lines = [line] := by
  obtain ⟨line, lines, hline, hlines, rfl⟩ := List.forall₂_cons_left_iff.mp h
  rw [List.forall₂_nil_left_iff.mp hlines]
  exact ⟨line, hline, rfl⟩

theorem readTexts_singleton (h : Line.tokensOf text = .ok line.tokens) : ReadTexts [text] [line] :=
  .cons h .nil

namespace Carries

theorem refl (texts : List (List Char)) : Carries texts texts :=
  fun lines h => ⟨lines, h, .refl lines⟩

theorem trans {texts'' : List (List Char)} (h : Carries texts texts')
    (h' : Carries texts' texts'') : Carries texts texts'' := by
  intro lines hlines
  obtain ⟨lines', hlines', hsame⟩ := h lines hlines
  obtain ⟨lines'', hlines'', hsame'⟩ := h' lines' hlines'
  exact ⟨lines'', hlines'', hsame.trans hsame'⟩

theorem append (h : Carries texts texts') (h' : Carries rest rest') :
    Carries (texts ++ rest) (texts' ++ rest') := by
  intro lines hlines
  obtain ⟨first, second, hfirst, hsecond, rfl⟩ := exists_of_readTexts_append hlines
  obtain ⟨first', hfirst', hsame⟩ := h first hfirst
  obtain ⟨second', hsecond', hsame'⟩ := h' second hsecond
  exact ⟨first' ++ second', List.rel_append hfirst' hsecond', hsame.append hsame'⟩

/-- A line is carried to another one if its tokens are. -/
theorem of_line (h : ∀ line : Line, Line.tokensOf text = .ok line.tokens →
    ∃ line' : Line, Line.tokensOf text' = .ok line'.tokens ∧ line.labels = line'.labels ∧
      line.draft? = line'.draft?) :
    Carries [text] [text'] := by
  intro lines hlines
  obtain ⟨line, hline, rfl⟩ := exists_of_readTexts_singleton hlines
  obtain ⟨line', hline', hlabels, hdraft⟩ := h line hline
  exact ⟨[line'], readTexts_singleton hline', .of_line hlabels hdraft⟩

theorem of_tokens
    (h : ∀ tokens, Line.tokensOf text = .ok tokens → Line.tokensOf text' = .ok tokens) :
    Carries [text] [text'] :=
  of_line fun line hline => ⟨line, h _ hline, rfl, rfl⟩

end Carries

namespace SameMeaning

theorem refl (texts : List (List Char)) : SameMeaning texts texts :=
  ⟨.refl texts, .refl texts⟩

theorem symm (h : SameMeaning texts texts') : SameMeaning texts' texts := ⟨h.2, h.1⟩

theorem trans {texts'' : List (List Char)} (h : SameMeaning texts texts')
    (h' : SameMeaning texts' texts'') : SameMeaning texts texts'' :=
  ⟨h.1.trans h'.1, h'.2.trans h.2⟩

theorem append (h : SameMeaning texts texts') (h' : SameMeaning rest rest') :
    SameMeaning (texts ++ rest) (texts' ++ rest') :=
  ⟨h.1.append h'.1, h.2.append h'.2⟩

/-- Lines with the same words mean the same. -/
theorem of_words (h : Line.words text = Line.words text') : SameMeaning [text] [text'] := by
  have htokens : Line.tokensOf text = Line.tokensOf text' := by
    rw [Line.tokensOf, h, Line.tokensOf]
  exact ⟨.of_tokens fun _ ht => htokens ▸ ht, .of_tokens fun _ ht => htokens ▸ ht⟩

/-- A line without words means nothing. -/
theorem of_silent (h : Line.words text = []) : SameMeaning [] [text] := by
  have htokens : Line.tokensOf text = .ok [] := by
    rw [Line.tokensOf, h]
    rfl
  constructor
  · intro lines hlines
    obtain rfl := List.forall₂_nil_left_iff.mp hlines
    exact ⟨[⟨0, []⟩], readTexts_singleton htokens, .of_silent rfl rfl⟩
  · intro lines hlines
    obtain ⟨line, hline, rfl⟩ := exists_of_readTexts_singleton hlines
    have hnil : line.tokens = [] := Except.ok.inj (hline.symm.trans htokens)
    have hlabels : line.labels = [] := by rw [Line.labels, hnil, List.filterMap_nil]
    have hdraft : line.draft? = .ok none := by
      rw [Line.draft?, Line.instruction?, hnil]
      rfl
    exact ⟨[], .nil, (SameProgram.of_silent hlabels hdraft).symm⟩

end SameMeaning

/-! ### Respelled mnemonics -/

theorem SameMnemonic.isWord {word word' : List Char} (h : SameMnemonic word word')
    (hword : Text.IsWord word) : Text.IsWord word' := by
  rw [← Text.isWord_map_toUpper]
  rcases h with hcase | ⟨-, hforward⟩
  · rw [hcase, Text.isWord_map_toUpper]
    exact hword
  · rw [hforward]
    exact Text.isWord_of_all (by decide) (by decide)

theorem SameMnemonic.not_endsInColon {word word' : List Char} (h : SameMnemonic word word')
    (hword : ¬ EndsInColon word) : ¬ EndsInColon word' := by
  rw [← Text.endsInColon_map_toUpper]
  rcases h with hcase | ⟨-, hforward⟩
  · rw [hcase, Text.endsInColon_map_toUpper]
    exact hword
  · rw [hforward, EndsInColon]
    decide

theorem Mnemonic.ofWord?_ofList (word : List Char) :
    Mnemonic.ofWord? (String.ofList word) =
      Mnemonic.names.lookup (String.ofList (word.map Char.toUpper)) := by
  have hmap : (String.ofList word).map Char.toUpper = String.ofList (word.map Char.toUpper) := by
    rw [← String.toList_inj, String.toList_map, String.toList_ofList, String.toList_ofList]
  rw [Mnemonic.ofWord?, hmap]

theorem SameMnemonic.ofWord?_eq {word word' : List Char} (h : SameMnemonic word word') :
    Mnemonic.ofWord? (String.ofList word') = Mnemonic.ofWord? (String.ofList word) := by
  rw [Mnemonic.ofWord?_ofList, Mnemonic.ofWord?_ofList]
  rcases h with hcase | ⟨hmove, hforward⟩
  · rw [hcase]
  · rw [hmove, hforward, String.ofList_toList, String.ofList_toList]
    rfl

/-- With its mnemonic word respelled, a line has the same labels and the same statement. -/
theorem Carries.of_mnemonic {before after : List (List Char)} {word word' : List Char}
    (htext : Line.words text = before ++ word :: after)
    (htext' : Line.words text' = before ++ word' :: after)
    (hbefore : ∀ w ∈ before, EndsInColon w) (hword : ¬ EndsInColon word)
    (hword' : ¬ EndsInColon word')
    (hname : Mnemonic.ofWord? (String.ofList word) = Mnemonic.ofWord? (String.ofList word')) :
    Carries [text] [text'] := by
  apply Carries.of_line
  intro line hline
  rw [Line.tokensOf, htext] at hline
  obtain ⟨names, operands, htokens, hrespelled⟩ :=
    Line.lexWords_of_mnemonic hbefore hword hword' hline
  refine ⟨⟨0, names.map .definition ++ .mnemonic (String.ofList word') :: operands⟩, ?_, ?_, ?_⟩
  · rw [Line.tokensOf, htext']
    exact hrespelled
  · rw [Line.labels, Line.labels, htokens, List.filterMap_append, List.filterMap_append]
    rfl
  · have hreads : line.Reads (String.ofList word) operands := ⟨names, htokens⟩
    have hreads' : Line.Reads ⟨0, names.map .definition ++ .mnemonic (String.ofList word') ::
        operands⟩ (String.ofList word') operands := ⟨names, rfl⟩
    rw [Line.draft?, Line.draft?, Line.instruction?_eq_some_iff.mpr hreads,
      Line.instruction?_eq_some_iff.mpr hreads']
    simp only [Draft.ofWords, hname]

/-! ### Moved directives -/

/-- A line that starts with a directive defines no name and states no command. -/
theorem StartsWithDirective.places_nothing (h : StartsWithDirective text)
    (hline : Line.tokensOf text = .ok line.tokens) :
    line.labels = [] ∧ line.command? = none := by
  obtain ⟨run, word, after, s, rfl, hrun, hword, hname⟩ := h
  have hcolon : ¬ EndsInColon word := by
    rw [← Text.endsInColon_map_toUpper, hname, EndsInColon]
    cases s <;> decide
  have hdirective : Mnemonic.ofWord? (String.ofList word) = some (.directive s) := by
    rw [Mnemonic.ofWord?_ofList, hname, String.ofList_toList]
    exact Mnemonic.lookup_text (.directive s)
  have hblank : Text.words run = [] := by
    have hwords := Text.words_append_of_allBlank hrun []
    rwa [List.append_nil] at hwords
  rw [Line.tokensOf, hword.words_eq, hblank, List.nil_append] at hline
  obtain ⟨left, token, operands, -, htoken, hoperands, htokens⟩ :=
    Line.lexWords_cons_eq_ok_iff.mp hline
  obtain rfl := Token.eq_mnemonic_of_ofWord hcolon htoken
  constructor
  · rw [Line.labels, htokens]
    exact (List.filterMap_cons_none rfl).trans (Line.filterMap_definedName?_of_lexWords hoperands)
  · rw [Option.eq_none_iff_forall_ne_some]
    intro c hc
    obtain ⟨word', hreads, hnames⟩ := Line.command?_eq_some_iff.mp hc
    have hinstruction := Line.instruction?_eq_some_iff.mpr hreads
    rw [Line.instruction?_eq_some_iff.mpr (⟨[], htokens⟩ : line.Reads _ operands)] at hinstruction
    obtain ⟨rfl, -⟩ := Prod.mk.inj (Option.some.inj hinstruction)
    -- A directive is the mnemonic of no operation.
    have hoperation := Mnemonic.isDirective_ofOperation c.operation
    have hsame := hdirective.symm.trans (Mnemonic.ofWord?_eq_some_iff.mpr hnames)
    rw [show Mnemonic.ofOperation c.operation = .directive s from (Option.some.inj hsame).symm]
      at hoperation
    cases hoperation

theorem SameMeaning.of_move (h : StartsWithDirective text) (texts : List (List Char)) :
    SameMeaning (text :: texts) (texts ++ [text]) := by
  constructor
  · intro all hall
    obtain ⟨line, lines, hline, hlines, rfl⟩ := List.forall₂_cons_left_iff.mp hall
    obtain ⟨hlabels, hcommand⟩ := h.places_nothing hline
    exact ⟨lines ++ [line], List.rel_append hlines (readTexts_singleton hline),
      .of_move hlabels hcommand lines⟩
  · intro all hall
    obtain ⟨lines, last, hlines, hlast, rfl⟩ := exists_of_readTexts_append hall
    obtain ⟨line, hline, rfl⟩ := exists_of_readTexts_singleton hlast
    obtain ⟨hlabels, hcommand⟩ := h.places_nothing hline
    exact ⟨line :: lines, .cons hline hlines,
      (SameProgram.of_move hlabels hcommand lines).symm⟩

/-! ### Letters of registers -/

/-- A line is read the same with a letter of the same register behind its mnemonic. -/
theorem Carries.of_letter {before after : List Char} {name name' : Char} {r : Register}
    (hword : StandsAlone before [name] after) (hword' : StandsAlone before [name'] after)
    (hmnemonic : ∃ w ∈ Text.words before, ¬ EndsInColon w)
    (hname : name.toUpper = r.letter) (hname' : name'.toUpper = r.letter) :
    Carries [before ++ [name] ++ after] [before ++ [name'] ++ after] := by
  apply Carries.of_tokens
  intro tokens htokens
  rw [Line.tokensOf, hword.words_eq] at htokens
  rw [Line.tokensOf, hword'.words_eq]
  exact Line.lexWords_of_letter hname hname' (.inr hmnemonic) htokens

/-! ### Every change keeps the meaning -/

theorem RewritesLine.sameMeaning (h : RewritesLine text text') : SameMeaning [text] [text'] := by
  cases h with
  | @comment mark hmark text comment =>
    apply SameMeaning.of_words
    have hend : Line.EndsLine (mark :: comment) := Line.endsLine_cons hmark comment
    exact (Line.words_append_of_endsLine (fun c hc => absurd hc List.not_mem_nil) hend text).symm
  | blanks hbefore hrun hrun' hends =>
    apply SameMeaning.of_words
    rw [Line.words_append_run hbefore hrun (hends.imp_left And.left),
      Line.words_append_run hbefore hrun' (hends.imp_left And.right)]
  | mnemonic hword hlabels hcolon hsame =>
    have hword' := hword.of_isWord (hsame.isWord hword.isWord)
    have hcolon' := hsame.not_endsInColon hcolon
    exact ⟨.of_mnemonic hword.words_eq hword'.words_eq hlabels hcolon hcolon' hsame.ofWord?_eq.symm,
      .of_mnemonic hword'.words_eq hword.words_eq hlabels hcolon' hcolon hsame.ofWord?_eq⟩
  | @register before after name name' r hword hmnemonic hname hname' =>
    have hword' : StandsAlone before [name'] after := by
      apply hword.of_isWord
      rw [← Text.isWord_map_toUpper, List.map_singleton, hname', ← hname, ← List.map_singleton,
        Text.isWord_map_toUpper]
      exact hword.isWord
    exact ⟨.of_letter hword hword' hmnemonic hname hname',
      .of_letter hword' hword hmnemonic hname' hname⟩

theorem IsSilent.words_eq (h : IsSilent text) : Line.words text = [] := by
  obtain ⟨run, comment, rfl, hrun, hcomment⟩ := h
  exact Line.words_append_of_endsLine hrun hcomment []

theorem Rearranges.sameMeaning (h : Rearranges texts texts') : SameMeaning texts texts' := by
  cases h with
  | @insert before after text htext =>
    have hsilent : SameMeaning ([] ++ after) ([text] ++ after) :=
      (SameMeaning.of_silent htext.words_eq).append (.refl after)
    exact (SameMeaning.refl before).append hsilent
  | @rewrite before after text text' htext =>
    have hline : SameMeaning ([text] ++ after) ([text'] ++ after) :=
      htext.sameMeaning.append (.refl after)
    exact (SameMeaning.refl before).append hline
  | @move before between after text htext =>
    have hmove : SameMeaning (text :: between ++ after) (between ++ [text] ++ after) :=
      (SameMeaning.of_move htext between).append (.refl after)
    rw [List.append_assoc between] at hmove
    have h := (SameMeaning.refl before).append hmove
    rwa [← List.append_assoc, ← List.append_assoc before] at h

/-- Any number of changes, back or forth, keeps the meaning. -/
theorem sameMeaning_of_eqvGen (h : Relation.EqvGen Rearranges texts texts') :
    SameMeaning texts texts' := by
  induction h with
  | rel texts texts' h => exact h.sameMeaning
  | refl texts => exact .refl texts
  | symm texts texts' _ ih => exact ih.symm
  | trans texts texts' texts'' _ _ ih ih' => exact ih.trans ih'

/-! ### Lines of a source -/

variable {source source' : List Char}

theorem words_dropReturn (text : List Char) :
    Line.words (Text.dropReturn text) = Line.words text := by
  unfold Text.dropReturn
  split
  · rename_i hlast
    have htext : text.dropLast ++ ['\r'] = text := List.dropLast_append_getLast? _ hlast
    have hblank : AllBlank ['\r'] := List.forall_mem_singleton.mpr (by decide)
    have hend : Line.EndsLine [] := fun c hc => nomatch hc
    conv => rhs; rw [← htext]
    exact (Line.words_append_of_endsLine hblank hend text.dropLast).symm
  · rfl

/-- The lines of a source mean what its pieces between line feeds mean: a carriage return at the end
of a line is a blank, and an empty last piece is no line. -/
theorem sameMeaning_lines (source : List Char) :
    SameMeaning (Text.lines source) (source.splitOn '\n') := by
  have hreturn (texts : List (List Char)) : SameMeaning (texts.map Text.dropReturn) texts := by
    induction texts with
    | nil => exact .refl []
    | cons text texts ih => exact (SameMeaning.of_words (words_dropReturn text)).append ih
  unfold Text.lines
  dsimp only
  generalize source.splitOn '\n' = pieces
  rcases List.eq_nil_or_concat pieces with rfl | ⟨init, last, rfl⟩
  · exact .refl []
  · rw [List.concat_eq_append, List.dropLast_concat, List.getLast?_concat]
    apply (hreturn init).append
    cases last with
    | nil => exact .of_silent rfl
    | cons c last => exact .refl _

theorem readTexts_of_readAs {number : Nat} (h : ReadAs (texts.zipIdx number) lines) :
    ReadTexts texts lines := by
  induction texts generalizing number lines with
  | nil =>
    rw [List.forall₂_nil_left_iff.mp h]
    exact .nil
  | cons text texts ih =>
    rw [List.zipIdx_cons] at h
    obtain ⟨line, rest, hline, hrest, rfl⟩ := List.forall₂_cons_left_iff.mp h
    refine .cons ?_ (ih hrest)
    show Line.lexWords maxTokens false (Line.words text) = .ok line.tokens
    unfold Line.lexNumbered Line.lex at hline
    split at hline
    · rename_i tokens htokens
      cases hline
      exact htokens
    · cases hline

/-- Lines can be given the numbers that they have in a source. -/
theorem exists_readAs_of_readTexts (h : ReadTexts texts lines) (number : Nat) :
    ∃ lines', ReadAs (texts.zipIdx number) lines' ∧ SameProgram lines lines' := by
  induction h generalizing number with
  | nil => exact ⟨[], .nil, .refl []⟩
  | @cons text line texts lines hline _ ih =>
    obtain ⟨lines', hlines', hsame⟩ := ih (number + 1)
    have hlex : Line.lex number text = .ok ⟨number, line.tokens⟩ := by
      have htokens : Line.lexWords maxTokens false (Text.words (Line.withoutComment text)) =
        .ok line.tokens := hline
      rw [Line.lex, htokens]
    have hline' : SameProgram [line] [⟨number, line.tokens⟩] := .of_line rfl rfl
    exact ⟨⟨number, line.tokens⟩ :: lines', .cons hlex hlines', hline'.append hsame⟩

/-! ### The main statement -/

theorem Carries.assembleSource_eq_ok (h : Carries (Text.lines source) (Text.lines source'))
    {capacity : Nat} {buffer written : Bytes} {d : Image.Descriptor}
    (hsource : assembleSource capacity source buffer = (.ok d, written)) :
    assembleSource capacity source' buffer = (.ok d, written) := by
  obtain ⟨lines, hread, hlines⟩ := assembleSource_eq_ok_iff.mp hsource
  obtain ⟨lines', hread', hsame⟩ := h lines (readTexts_of_readAs hread)
  obtain ⟨numbered, hnumbered, hsame'⟩ := exists_readAs_of_readTexts hread' 1
  have hassembled := (hsame.trans hsame').assemble_eq_ok hlines
  exact assembleSource_eq_ok_iff.mpr ⟨numbered, hnumbered, hassembled⟩

/-- **Layout does not matter.** Sources whose lines are led to each other by any number of changes,
back or forth, are assembled to the same descriptor and the same bytes, or neither is assembled. The
changes are those of `Rearranges`: lines without words inserted or deleted, comments appended or
removed, runs of blanks replaced, mnemonics and letters of registers respelled, and directives
moved. The lines of a source are what its line feeds separate. -/
theorem layout_does_not_matter (capacity : Nat) (source source' : List Char)
    (buffer written : Bytes) (d : Image.Descriptor)
    (h : Relation.EqvGen Rearranges (source.splitOn '\n') (source'.splitOn '\n')) :
    assembleSource capacity source buffer = (.ok d, written) ↔
      assembleSource capacity source' buffer = (.ok d, written) := by
  have hsame : SameMeaning (Text.lines source) (Text.lines source') :=
    ((sameMeaning_lines source).trans (sameMeaning_of_eqvGen h)).trans
      (sameMeaning_lines source').symm
  exact ⟨hsame.1.assembleSource_eq_ok, hsame.2.assembleSource_eq_ok⟩

/-- A walk in a loop, whose canvas is set at the end. -/
def tidyWalk : List Char := "loop: MOV\nJNZ B loop\nWIDTH 64".toList

/-- The same walk, laid out in another way. -/
def untidyWalk : List Char := "WIDTH 64\r\n# walk\nloop: fwd; ahead\nJNZ b loop".toList

theorem layout_does_not_matter_to_tidyWalk :
    assembleSource 1 tidyWalk (.replicate 9 0) =
      (.ok ⟨9, ⟨64, 512⟩⟩, #[64, 0, 0, 2, 2, 7, 1, 0, 0]) ∧
    assembleSource 1 untidyWalk (.replicate 9 0) =
      (.ok ⟨9, ⟨64, 512⟩⟩, #[64, 0, 0, 2, 2, 7, 1, 0, 0]) := by
  have htidy : assembleSource 1 tidyWalk (.replicate 9 0) =
      (.ok ⟨9, ⟨64, 512⟩⟩, #[64, 0, 0, 2, 2, 7, 1, 0, 0]) := by decide +kernel
  have hdirective : StartsWithDirective "WIDTH 64".toList :=
    ⟨[], "WIDTH".toList, " 64".toList, .width, rfl, by decide,
      ⟨Text.isWord_of_all (by decide) (by decide), by decide, by decide, by decide⟩, by decide⟩
  have hcomment : IsSilent "# walk".toList := ⟨[], "# walk".toList, rfl, by decide, by decide⟩
  have hreturn : RewritesLine "WIDTH 64".toList "WIDTH 64\r".toList :=
    show RewritesLine ("WIDTH 64".toList ++ [] ++ []) ("WIDTH 64".toList ++ ['\r'] ++ []) from
      .blanks (by decide) (by decide) (by decide) (by decide)
  have hforward : RewritesLine "loop: MOV".toList "loop: fwd".toList :=
    show RewritesLine ("loop: ".toList ++ "MOV".toList ++ [])
        ("loop: ".toList ++ "fwd".toList ++ []) from
      .mnemonic ⟨Text.isWord_of_all (by decide) (by decide), by decide, by decide, by decide⟩
        (by decide) (by decide) (.inr (by decide))
  have hahead : RewritesLine "loop: fwd".toList "loop: fwd; ahead".toList :=
    .comment (show Line.IsMark ';' from .inl rfl) "loop: fwd".toList " ahead".toList
  have hletter : RewritesLine "JNZ B loop".toList "JNZ b loop".toList :=
    show RewritesLine ("JNZ ".toList ++ ['B'] ++ " loop".toList)
        ("JNZ ".toList ++ ['b'] ++ " loop".toList) from
      .register ⟨Text.isWord_of_all (by decide) (by decide), by decide, by decide, by decide⟩
        (by decide) (show 'B'.toUpper = Register.b.letter from rfl) rfl
  have hlayout : Relation.EqvGen Rearranges (tidyWalk.splitOn '\n') (untidyWalk.splitOn '\n') := by
    have hpieces : tidyWalk.splitOn '\n' =
        ["loop: MOV".toList, "JNZ B loop".toList, "WIDTH 64".toList] := by decide
    have hpieces' : untidyWalk.splitOn '\n' =
        ["WIDTH 64\r".toList, "# walk".toList, "loop: fwd; ahead".toList, "JNZ b loop".toList] := by
      decide
    rw [hpieces, hpieces']
    -- The directive moves up and gets a carriage return, a comment follows, then the other lines.
    refine .trans _ _ _ (.symm _ _ (.rel _ _ (.move [] [_, _] [] hdirective))) ?_
    refine .trans _ _ _ (.rel _ _ (.rewrite [] [_, _] hreturn)) ?_
    refine .trans _ _ _ (.rel _ _ (.insert [_] [_, _] hcomment)) ?_
    refine .trans _ _ _ (.rel _ _ (.rewrite [_, _] [_] hforward)) ?_
    refine .trans _ _ _ (.rel _ _ (.rewrite [_, _] [_] hahead)) ?_
    exact .rel _ _ (.rewrite [_, _, _] [] hletter)
  exact ⟨htidy, (layout_does_not_matter 1 tidyWalk untidyWalk _ _ _ hlayout).mp htidy⟩

end TurtleVM.Assembly
