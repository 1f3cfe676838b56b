import TurtleVM.Proofs.WordReading

/-! # The grammar of a line

A line of assembly is cut into words up to its comment (`CutsInto`), and what a word is read as
depends on where it stands (`WordReads`). The lexer accepts a line exactly if each of its words can
be read where it stands and there are at most eight, and then no word is lost. If it refuses a line,
the error is that of the first word to blame: `lex_accepts_exactly_the_grammar`.
-/

namespace TurtleVM.Assembly

/-! ### The words of a line -/

/-- The words of a line are those of its text up to the first mark of a comment. -/
def Line.CutsInto (text : List Char) (ws : List (List Char)) : Prop :=
  ∃ content comment, text = content ++ comment ∧ Unmarked content ∧ EndsLine comment ∧
    Text.CutsInto content ws

theorem Line.cutsInto_iff {text : List Char} {ws : List (List Char)} :
    Line.CutsInto text ws ↔ Line.words text = ws := by
  constructor
  · rintro ⟨content, comment, rfl, hcontent, hcomment, hws⟩
    rw [words, withoutComment_append hcontent, withoutComment_of_endsLine hcomment,
      List.append_nil, hws.words_eq]
  · intro h
    rcases unmarked_or_exists_mark text with htext | ⟨content, c, comment, rfl, hcontent, hc⟩
    · rw [words, withoutComment_of_unmarked htext] at h
      have hend : EndsLine [] := fun c hc => absurd hc (Option.not_mem_none c)
      exact ⟨text, [], (List.append_nil text).symm, htext, hend, Text.cutsInto_iff.mpr h⟩
    · rw [words, withoutComment_append_mark hcontent hc] at h
      exact ⟨content, c :: comment, rfl, hcontent, endsLine_cons hc comment,
        Text.cutsInto_iff.mpr h⟩

/-! ### Reading words in a row -/

namespace Line

open Text (EndsInColon)

/-- What a word is read as behind the words `before`. The mnemonic is among these if one of them has
no colon at its end. -/
def WordReads (before : List (List Char)) (word : List Char) (result : Except Cause Token) : Prop :=
  ((∀ w ∈ before, EndsInColon w) ∧ Token.LeadingReads word result) ∨
    (∃ w ∈ before, ¬ EndsInColon w) ∧ Token.OperandReads word result

/-- Behind the words `before`, the word at place `i` is read as the result. -/
def ReadsAt (before ws : List (List Char)) (i : Nat) (result : Except Cause Token) : Prop :=
  ∃ word ∈ ws[i]?, WordReads (before ++ ws.take i) word result

/-- The word at place `i` is to blame: it cannot be read, or it can be read but has no room. -/
def Offends (room : Nat) (before ws : List (List Char)) (i : Nat) (cause : Cause) : Prop :=
  ReadsAt before ws i (.error cause) ∨
    i = room ∧ cause = .tooManyTokens ∧ ∃ token, ReadsAt before ws i (.ok token)

/-- The cause is that of the first word to blame. -/
def Blames (room : Nat) (before ws : List (List Char)) (cause : Cause) : Prop :=
  ∃ i, Offends room before ws i cause ∧ ∀ j < i, ∀ cause', ¬ Offends room before ws j cause'

/-- The mnemonic is among the words. -/
def hasMnemonic (before : List (List Char)) : Bool := before.any fun w => !decide (EndsInColon w)

variable {before ws : List (List Char)} {word : List Char} {result result' : Except Cause Token}
variable {token : Token} {tokens : List Token} {room i : Nat} {cause cause' : Cause}

theorem hasMnemonic_eq_true_iff : hasMnemonic before = true ↔ ∃ w ∈ before, ¬ EndsInColon w := by
  simp [hasMnemonic]

theorem hasMnemonic_eq_false_iff : hasMnemonic before = false ↔ ∀ w ∈ before, EndsInColon w := by
  simp [hasMnemonic]

theorem ofWord_eq_iff :
    Token.ofWord (hasMnemonic before) word = result ↔ WordReads before word result := by
  rw [WordReads, ← hasMnemonic_eq_true_iff, ← hasMnemonic_eq_false_iff]
  cases hasMnemonic before with
  | true => simpa [Token.ofWord] using Token.ofOperandWord_eq_iff
  | false => simpa [Token.ofWord] using Token.ofLeadingWord_eq_iff

theorem hasMnemonic_append (h : WordReads before word (.ok token)) :
    hasMnemonic (before ++ [word]) = (hasMnemonic before || token.isMnemonic) := by
  rw [hasMnemonic, List.any_append]
  rcases h with ⟨-, hword⟩ | ⟨hbefore, -⟩
  · rw [hword.isMnemonic]
    simp [hasMnemonic]
  · have htrue := hasMnemonic_eq_true_iff.mpr hbefore
    rw [htrue, Bool.true_or]
    exact congrArg (· || _) htrue

theorem readsAt_zero : ReadsAt before (word :: ws) 0 result ↔ WordReads before word result := by
  simp [ReadsAt]

theorem readsAt_succ :
    ReadsAt before (word :: ws) (i + 1) result ↔ ReadsAt (before ++ [word]) ws i result := by
  simp [ReadsAt]

theorem ReadsAt.lt_length (h : ReadsAt before ws i result) : i < ws.length := by
  obtain ⟨word, hword, -⟩ := h
  exact (List.getElem?_eq_some_iff.mp hword).1

theorem ReadsAt.unique (h : ReadsAt before ws i result) (h' : ReadsAt before ws i result') :
    result = result' := by
  obtain ⟨word, hword, hreads⟩ := h
  obtain ⟨word', hword', hreads'⟩ := h'
  obtain rfl := Option.mem_unique hword hword'
  exact (ofWord_eq_iff.mpr hreads).symm.trans (ofWord_eq_iff.mpr hreads')

/-! ### Reading all words of a line -/

/-- Words that are read have room, and each of them becomes one token. -/
theorem readsAt_of_lexWords (h : lexWords room (hasMnemonic before) ws = .ok tokens) :
    ws.length ≤ room ∧ tokens.length = ws.length ∧
      ∀ i token, tokens[i]? = some token → ReadsAt before ws i (.ok token) := by
  induction ws generalizing room before tokens with
  | nil =>
    rw [lexWords, pure_eq_ok] at h
    subst h
    refine ⟨Nat.zero_le _, rfl, ?_⟩
    intro i token htoken
    rw [List.getElem?_nil] at htoken
    cases htoken
  | cons word ws ih =>
    obtain ⟨left, token, rest, rfl, htoken, hrest, rfl⟩ := lexWords_cons_eq_ok_iff.mp h
    have hword := ofWord_eq_iff.mp htoken
    rw [← hasMnemonic_append hword] at hrest
    obtain ⟨hroom, hlength, hreads⟩ := ih hrest
    refine ⟨Nat.succ_le_succ hroom, congrArg (· + 1) hlength, ?_⟩
    intro i token' htoken'
    cases i with
    | zero =>
      cases htoken'
      exact readsAt_zero.mpr hword
    | succ i => exact readsAt_succ.mpr (hreads i token' htoken')

/-- Words are refused for the first one, or for want of room behind it, or for one of the others. -/
theorem lexWords_cons_eq_error_iff {afterMnemonic : Bool} :
    lexWords room afterMnemonic (word :: ws) = .error cause ↔
      Token.ofWord afterMnemonic word = .error cause ∨
        ∃ token, Token.ofWord afterMnemonic word = .ok token ∧
          (room = 0 ∧ cause = .tooManyTokens ∨ ∃ left, room = left + 1 ∧
            lexWords left (afterMnemonic || token.isMnemonic) ws = .error cause) := by
  cases room with
  | zero =>
    rw [lexWords_zero_cons]
    cases Token.ofWord afterMnemonic word with
    | error cause' => simp
    | ok token => simp [eq_comm]
  | succ room =>
    rw [lexWords_succ_cons]
    cases Token.ofWord afterMnemonic word with
    | error cause' => simp
    | ok token =>
      rw [ok_bind]
      cases hrest : lexWords room (afterMnemonic || token.isMnemonic) ws with
      | error cause' => simp [hrest]
      | ok rest => simp [hrest]

theorem Offends.succ (h : Offends room (before ++ [word]) ws i cause) :
    Offends (room + 1) before (word :: ws) (i + 1) cause := by
  rcases h with herror | ⟨rfl, hcause, token, htoken⟩
  · exact .inl (readsAt_succ.mpr herror)
  · exact .inr ⟨rfl, hcause, token, readsAt_succ.mpr htoken⟩

/-- If words are refused, one of them is to blame, and all before it can be read. -/
theorem exists_offends_of_lexWords (h : lexWords room (hasMnemonic before) ws = .error cause) :
    ∃ i ≤ room, Offends room before ws i cause ∧
      ∀ j < i, ∃ token, ReadsAt before ws j (.ok token) := by
  induction ws generalizing room before with
  | nil =>
    rw [lexWords] at h
    cases h
  | cons word ws ih =>
    rcases lexWords_cons_eq_error_iff.mp h with herror | ⟨token, htoken, hbehind⟩
    · -- The first word is no token.
      refine ⟨0, Nat.zero_le _, .inl (readsAt_zero.mpr (ofWord_eq_iff.mp herror)), ?_⟩
      intro j hj
      exact absurd hj (Nat.not_lt_zero j)
    have hword : ReadsAt before (word :: ws) 0 (.ok token) :=
      readsAt_zero.mpr (ofWord_eq_iff.mp htoken)
    rcases hbehind with ⟨rfl, hcause⟩ | ⟨left, rfl, hrest⟩
    · -- The first word is a token, but there is no room for it.
      refine ⟨0, le_rfl, .inr ⟨rfl, hcause, token, hword⟩, ?_⟩
      intro j hj
      exact absurd hj (Nat.not_lt_zero j)
    · -- The word to blame is one of the others.
      rw [← hasMnemonic_append (ofWord_eq_iff.mp htoken)] at hrest
      obtain ⟨i, hi, hoffends, hreads⟩ := ih hrest
      refine ⟨i + 1, Nat.succ_le_succ hi, hoffends.succ, ?_⟩
      intro j hj
      cases j with
      | zero => exact ⟨token, hword⟩
      | succ j =>
        obtain ⟨token', htoken'⟩ := hreads j (Nat.lt_of_succ_lt_succ hj)
        exact ⟨token', readsAt_succ.mpr htoken'⟩

theorem getElem?_eq_some_iff_readsAt (h : lexWords room (hasMnemonic before) ws = .ok tokens) :
    tokens[i]? = some token ↔ ReadsAt before ws i (.ok token) := by
  obtain ⟨-, hlength, hreads⟩ := readsAt_of_lexWords h
  refine ⟨hreads i token, ?_⟩
  intro htoken
  have hi : i < tokens.length := hlength ▸ htoken.lt_length
  have hget : tokens[i]? = some tokens[i] := List.getElem?_eq_getElem hi
  rw [hget, Except.ok.inj (htoken.unique (hreads i _ hget))]

theorem not_offends_of_lexWords (h : lexWords room (hasMnemonic before) ws = .ok tokens) :
    ¬ Offends room before ws i cause := by
  obtain ⟨hroom, hlength, hreads⟩ := readsAt_of_lexWords h
  rintro (herror | ⟨rfl, -, token, htoken⟩)
  · have hi : i < tokens.length := hlength ▸ herror.lt_length
    cases herror.unique (hreads i _ (List.getElem?_eq_getElem hi))
  · exact absurd htoken.lt_length (Nat.not_lt.mpr hroom)

theorem Blames.unique (h : Blames room before ws cause) (h' : Blames room before ws cause') :
    cause = cause' := by
  obtain ⟨i, hoffends, hfirst⟩ := h
  obtain ⟨i', hoffends', hfirst'⟩ := h'
  obtain rfl : i = i' := by
    rcases Nat.lt_trichotomy i i' with hlt | heq | hgt
    · exact absurd hoffends (hfirst' i hlt cause)
    · exact heq
    · exact absurd hoffends' (hfirst i' hgt cause')
  rcases hoffends with herror | ⟨-, hcause, token, htoken⟩
  · rcases hoffends' with herror' | ⟨-, -, token', htoken'⟩
    · exact Except.error.inj (herror.unique herror')
    · cases herror.unique htoken'
  · rcases hoffends' with herror' | ⟨-, hcause', -⟩
    · cases herror'.unique htoken
    · rw [hcause, hcause']

/-- Words are refused for the first one that is to blame. -/
theorem lexWords_eq_error_iff : lexWords room (hasMnemonic before) ws = .error cause ↔
    Blames room before ws cause := by
  have hblames {cause : Cause} (h : lexWords room (hasMnemonic before) ws = .error cause) :
      Blames room before ws cause := by
    obtain ⟨i, hi, hoffends, hreads⟩ := exists_offends_of_lexWords h
    refine ⟨i, hoffends, ?_⟩
    intro j hj cause' hoffends'
    obtain ⟨token, htoken⟩ := hreads j hj
    rcases hoffends' with herror | ⟨hroom, -⟩
    · cases herror.unique htoken
    · -- Only the word at the end of the room can be one too many.
      omega
  refine ⟨hblames, ?_⟩
  intro h
  cases hresult : lexWords room (hasMnemonic before) ws with
  | ok tokens =>
    obtain ⟨i, hoffends, -⟩ := h
    exact absurd hoffends (not_offends_of_lexWords hresult)
  | error cause' => rw [(hblames hresult).unique h]

/-- Words are read exactly if each of them can be read and all have room. -/
theorem exists_lexWords_eq_ok_iff : (∃ tokens, lexWords room (hasMnemonic before) ws = .ok tokens) ↔
    ws.length ≤ room ∧ ∀ i < ws.length, ∃ token, ReadsAt before ws i (.ok token) := by
  constructor
  · rintro ⟨tokens, h⟩
    obtain ⟨hroom, hlength, hreads⟩ := readsAt_of_lexWords h
    refine ⟨hroom, ?_⟩
    intro i hi
    have hi : i < tokens.length := hlength ▸ hi
    exact ⟨tokens[i], hreads i _ (List.getElem?_eq_getElem hi)⟩
  · rintro ⟨hroom, hreads⟩
    cases hresult : lexWords room (hasMnemonic before) ws with
    | ok tokens => exact ⟨tokens, rfl⟩
    | error cause =>
      obtain ⟨i, herror | ⟨rfl, -, token, htoken⟩, -⟩ := lexWords_eq_error_iff.mp hresult
      · obtain ⟨token, htoken⟩ := hreads i herror.lt_length
        cases herror.unique htoken
      · exact absurd htoken.lt_length (Nat.not_lt.mpr hroom)

/-! ### Parts of a line -/

/-- The labels of a line are the leading words that end in a colon, its mnemonic is the word behind
them, and the definitions of the labels and the instruction are all of its tokens. -/
structure HasParts (line : Line) (ws : List (List Char)) : Prop where
  labels : line.labels.map (fun name => name.toList ++ [':']) =
    ws.takeWhile fun w => EndsInColon w
  mnemonic : line.instruction?.map (fun i => i.1.toList) =
    (ws.dropWhile fun w => EndsInColon w).head?
  tokens : line.tokens =
    line.labels.map .definition ++ line.instruction?.elim [] fun i => .mnemonic i.1 :: i.2

variable {number : Nat} {name : String}

theorem HasParts.cons_definition (h : HasParts ⟨number, tokens⟩ ws) :
    HasParts ⟨number, .definition name :: tokens⟩ ((name.toList ++ [':']) :: ws) := by
  have hcolon : decide (EndsInColon (name.toList ++ [':'])) = true :=
    decide_eq_true (Token.endsInColon_iff.mpr ⟨_, rfl⟩)
  have hinstruction : instruction? ⟨number, .definition name :: tokens⟩ =
      instruction? ⟨number, tokens⟩ := by
    rw [instruction?, List.dropWhile_cons_of_pos rfl]
    rfl
  constructor
  · simp only [List.takeWhile_cons, hcolon, if_true, ← h.labels]
    rfl
  · simp only [List.dropWhile_cons, hcolon, if_true, ← h.mnemonic, hinstruction]
  · rw [hinstruction]
    exact congrArg (.definition name :: ·) h.tokens

theorem hasParts_mnemonic (hcolon : ¬ EndsInColon word)
    (hoperands : tokens.filterMap Token.definedName? = []) :
    HasParts ⟨number, .mnemonic (String.ofList word) :: tokens⟩ (word :: ws) := by
  have hcolon : decide (EndsInColon word) = false := decide_eq_false hcolon
  have hlabels : labels ⟨number, .mnemonic (String.ofList word) :: tokens⟩ = [] := hoperands
  constructor
  · simp only [List.takeWhile_cons, hcolon, hlabels]
    rfl
  · simp only [List.dropWhile_cons, hcolon]
    exact congrArg some String.toList_ofList
  · rw [hlabels]
    rfl

theorem hasParts_of_lexWords (h : lexWords room false ws = .ok tokens) :
    HasParts ⟨number, tokens⟩ ws := by
  induction ws generalizing room tokens with
  | nil =>
    rw [lexWords, pure_eq_ok] at h
    subst h
    exact ⟨rfl, rfl, rfl⟩
  | cons word ws ih =>
    obtain ⟨left, token, rest, rfl, htoken, hrest, rfl⟩ := lexWords_cons_eq_ok_iff.mp h
    cases Token.ofLeadingWord_eq_iff.mp htoken with
    | @definition name hname =>
      have hparts : HasParts ⟨number, .definition (String.ofList name) :: rest⟩ _ :=
        (ih hrest).cons_definition
      rwa [String.toList_ofList] at hparts
    | mnemonic hcolon =>
      exact hasParts_mnemonic hcolon (filterMap_definedName?_of_lexWords hrest)

/-! ### The grammar -/

theorem lex_eq (number : Nat) (text : List Char) : lex number text =
    match lexWords maxTokens false (words text) with
    | .ok tokens => .ok ⟨number, tokens⟩
    | .error cause => .error (.onLine number cause) := rfl

theorem lex_eq_ok_iff {text : List Char} {line : Line} : lex number text = .ok line ↔
    lexWords maxTokens false (words text) = .ok line.tokens ∧ line.number = number := by
  rw [lex_eq]
  cases lexWords maxTokens false (words text) with
  | ok tokens =>
    simp only [Except.ok.injEq]
    constructor
    · rintro rfl
      exact ⟨rfl, rfl⟩
    · rintro ⟨rfl, rfl⟩
      rfl
  | error cause => simp

theorem lex_eq_error_iff {text : List Char} {e : Error} : lex number text = .error e ↔
    ∃ cause, lexWords maxTokens false (words text) = .error cause ∧ e = .onLine number cause := by
  rw [lex_eq]
  cases lexWords maxTokens false (words text) with
  | ok tokens => simp
  | error cause => simp [eq_comm]

/-- **A line is accepted exactly if every word can be read where it stands and there are at most
eight words.** Each word becomes one token then, and the labels and the instruction of the line have
all of these. Otherwise the error is that of the first word that is to blame, be it that the word
cannot be read or that it is the ninth. -/
theorem lex_accepts_exactly_the_grammar (number : Nat) (text : List Char) :
    ∃ ws, (∀ ws', CutsInto text ws' ↔ ws' = ws) ∧
      ((∃ line, lex number text = .ok line) ↔
        ws.length ≤ 8 ∧ ∀ i < ws.length, ∃ token, ReadsAt [] ws i (.ok token)) ∧
      (∀ line, lex number text = .ok line →
        line.number = number ∧ line.tokens.length = ws.length ∧
          (∀ i token, line.tokens[i]? = some token ↔ ReadsAt [] ws i (.ok token)) ∧
          line.HasParts ws) ∧
      ∀ e, lex number text = .error e ↔
        ∃ cause, e = .onLine number cause ∧ Blames 8 [] ws cause := by
  refine ⟨words text, ?_, ?_, ?_, ?_⟩
  · intro ws'
    rw [cutsInto_iff, eq_comm]
  · rw [← exists_lexWords_eq_ok_iff]
    constructor
    · rintro ⟨line, h⟩
      exact ⟨line.tokens, (lex_eq_ok_iff.mp h).1⟩
    · rintro ⟨tokens, h⟩
      exact ⟨⟨number, tokens⟩, lex_eq_ok_iff.mpr ⟨h, rfl⟩⟩
  · intro line h
    obtain ⟨htokens, hnumber⟩ := lex_eq_ok_iff.mp h
    -- Before the first word there is no mnemonic yet.
    have hfirst : lexWords 8 (hasMnemonic []) (words text) = .ok line.tokens := htokens
    obtain ⟨-, hlength, -⟩ := readsAt_of_lexWords hfirst
    exact ⟨hnumber, hlength, fun i token => getElem?_eq_some_iff_readsAt hfirst,
      hasParts_of_lexWords htokens⟩
  · intro e
    rw [lex_eq_error_iff]
    simp only [← lexWords_eq_error_iff, and_comm]
    rfl

example : lex 2 "STO A 1 2 3 4 5 6 7".toList = .error (.onLine 2 .tooManyTokens) := by
  decide +kernel
example : lex 2 "STO A 1 2 3 4 5 6 7ab".toList = .error (.onLine 2 .invalidNumber) := by
  decide +kernel

end Line

end TurtleVM.Assembly
