import Mathlib.Data.List.Forall2
import Mathlib.Data.List.Induction
import Mathlib.Data.Nat.Digits.Defs
import TurtleVM.Proofs.Numerals
import TurtleVM.Proofs.WordReading

/-! # The grammar of literals

A literal is put together from up to four pieces: a minus in first place, a mark for base sixteen,
one sign, and digits. The digits write a number by the place they stand in (`Numeral`), the sign and
the mark go with them (`SignedNumeral`, `MarkedNumeral`), and a minus in first place negates what
the rest spells (`Spells`). Each of these is shown to be what the function for it finds.

`literals_are_read_by_their_grammar` says which words are read as numbers, and as which; every other
word that starts like a number is refused.
-/

namespace TurtleVM

namespace Text.Literal

/-! ### Digits -/

/-- The character is the digit `d` of the base, a letter in either case. -/
def IsDigit (base : Nat) (c : Char) (d : Nat) : Prop :=
  d < base ∧ (c = d.digitChar ∨ c = d.digitChar.toUpper)

/-- One or more digits write a number: from the last digit to the first, these are the digits of the
number in the base, zeros behind them included. -/
def Numeral (base : Nat) (digits : List Char) (n : Nat) : Prop :=
  digits ≠ [] ∧ ∃ ds, List.Forall₂ (IsDigit base) digits.reverse ds ∧ n = Nat.ofDigits base ds

variable {base n : Nat} {c : Char} {d : Nat} {digits text word : List Char} {k : Int}

/-- A character in a range is told by its distance from the first. -/
theorem exists_eq_ofNat_of_range {low high : Char} (h : low ≤ c ∧ c ≤ high) :
    ∃ k ≤ high.toNat - low.toNat, c = Char.ofNat (low.toNat + k) ∧ c.toNat - low.toNat = k := by
  have hlow : low.toNat ≤ c.toNat := h.1
  have hhigh : c.toNat ≤ high.toNat := h.2
  refine ⟨c.toNat - low.toNat, by omega, ?_, rfl⟩
  rw [Nat.add_sub_cancel' hlow, Char.ofNat_toNat]

theorem eq_digitChar_of_digit? (h : digit? base c = some d) :
    c = d.digitChar ∨ c = d.digitChar.toUpper := by
  obtain ⟨hvalue, -⟩ := Option.filter_eq_some_iff.mp h
  -- One case for each of the three ranges of digit characters.
  split_ifs at hvalue with hdecimal hlower hupper
  · obtain ⟨k, hk, hc, hd⟩ := exists_eq_ofNat_of_range hdecimal
    have hall : ∀ k ≤ 9, Char.ofNat (48 + k) = k.digitChar := by decide
    rw [← Option.some.inj hvalue, hd, hc]
    exact .inl (hall k hk)
  · obtain ⟨k, hk, hc, hd⟩ := exists_eq_ofNat_of_range hlower
    have hall : ∀ k ≤ 5, Char.ofNat (97 + k) = (k + 10).digitChar := by decide
    rw [← Option.some.inj hvalue, hd, hc]
    exact .inl (hall k hk)
  · obtain ⟨k, hk, hc, hd⟩ := exists_eq_ofNat_of_range hupper
    have hall : ∀ k ≤ 5, Char.ofNat (65 + k) = (k + 10).digitChar.toUpper := by decide
    rw [← Option.some.inj hvalue, hd, hc]
    exact .inr (hall k hk)

theorem digit?_eq_some_iff (hbase : base ≤ 16) : digit? base c = some d ↔ IsDigit base c d := by
  constructor
  · intro h
    have hlt : d < base := by simpa using (Option.filter_eq_some_iff.mp h).2
    exact ⟨hlt, eq_digitChar_of_digit? h⟩
  · rintro ⟨hlt, rfl | rfl⟩
    · exact digit?_digitChar hbase hlt
    · have hall : ∀ base ≤ 16, ∀ d < base, digit? base d.digitChar.toUpper = some d := by decide
      exact hall base hbase d hlt

theorem value?_eq_some_iff (hbase : base ≤ 16) : value? base digits = some n ↔
    ∃ ds, List.Forall₂ (IsDigit base) digits.reverse ds ∧ n = Nat.ofDigits base ds := by
  -- The last digit comes off the end of the word and off the front of its digits.
  induction digits using List.reverseRecOn generalizing n with
  | nil =>
    simp [value?, eq_comm]
  | append_singleton digits c ih =>
    rw [value?_append_singleton, List.reverse_append, List.reverse_singleton,
      List.singleton_append]
    constructor
    · intro h
      obtain ⟨m, hm, h⟩ := Option.bind_eq_some_iff.mp h
      obtain ⟨d, hd, rfl⟩ := Option.map_eq_some_iff.mp h
      obtain ⟨ds, hds, rfl⟩ := ih.mp hm
      refine ⟨d :: ds, .cons ((digit?_eq_some_iff hbase).mp hd) hds, ?_⟩
      rw [Nat.ofDigits_cons, Nat.add_comm]
    · rintro ⟨_, hds, rfl⟩
      obtain ⟨d, ds, hd, hrest, rfl⟩ := List.forall₂_cons_left_iff.mp hds
      rw [ih.mpr ⟨ds, hrest, rfl⟩, Option.bind_some, (digit?_eq_some_iff hbase).mpr hd,
        Option.map_some, Nat.ofDigits_cons, Nat.add_comm]

theorem magnitude?_eq_some_iff (hbase : base ≤ 16) :
    magnitude? base digits = some n ↔ Numeral base digits n := by
  by_cases hne : digits = []
  · subst hne
    simp [magnitude?, Numeral]
  · rw [magnitude?_of_ne_nil hne, value?_eq_some_iff hbase, Numeral, and_iff_right hne]

/-! ### Signs and marks -/

/-- Digits with at most one sign in front. -/
inductive SignedNumeral (base : Nat) : List Char → Int → Prop
  | unsigned {digits : List Char} {n : Nat} (h : Numeral base digits n) :
      SignedNumeral base digits n
  | plus {digits : List Char} {n : Nat} (h : Numeral base digits n) :
      SignedNumeral base ('+' :: digits) n
  | minus {digits : List Char} {n : Nat} (h : Numeral base digits n) :
      SignedNumeral base ('-' :: digits) (-n)

/-- A signed numeral in base sixteen behind its mark, or in base ten without a mark. -/
inductive MarkedNumeral : List Char → Int → Prop
  | decimal {text : List Char} {k : Int} (h : SignedNumeral 10 text k) : MarkedNumeral text k
  | hexadecimal {x : Char} {text : List Char} {k : Int} (hmark : x = 'x' ∨ x = 'X')
      (h : SignedNumeral 16 text k) : MarkedNumeral ('0' :: x :: text) k

/-- What number a word spells. A minus in first place always negates what stands behind it, and both
numbers have to fit a signed 64-bit word. -/
inductive Spells : List Char → Int → Prop
  | outright {word : List Char} {k : Int} (hfirst : word.head? ≠ some '-')
      (h : MarkedNumeral word k) (hfits : Fits k) : Spells word k
  | negated {text : List Char} {k : Int} (h : MarkedNumeral text k) (hfits : Fits k)
      (hleast : k ≠ least) : Spells ('-' :: text) (-k)

/-- No digit is a sign or the letter of a mark. -/
theorem IsDigit.plain (hbase : base ≤ 16) (h : IsDigit base c d) :
    c ≠ '-' ∧ c ≠ '+' ∧ c ≠ 'x' ∧ c ≠ 'X' := by
  obtain ⟨hlt, hc⟩ := h
  have hlower : ∀ d < 16, d.digitChar ≠ '-' ∧ d.digitChar ≠ '+' ∧ d.digitChar ≠ 'x' ∧
      d.digitChar ≠ 'X' := by decide
  have hupper : ∀ d < 16, d.digitChar.toUpper ≠ '-' ∧ d.digitChar.toUpper ≠ '+' ∧
      d.digitChar.toUpper ≠ 'x' ∧ d.digitChar.toUpper ≠ 'X' := by decide
  rcases hc with rfl | rfl
  · exact hlower d (hlt.trans_le hbase)
  · exact hupper d (hlt.trans_le hbase)

theorem Numeral.plain (hbase : base ≤ 16) (h : Numeral base digits n) :
    ∀ c ∈ digits, c ≠ '-' ∧ c ≠ '+' ∧ c ≠ 'x' ∧ c ≠ 'X' := by
  obtain ⟨-, ds, hds, -⟩ := h
  have hplain := hds.imp fun c d hd => And.intro (hd.plain hbase) hd
  intro c hc
  exact ((List.forall₂_and_left _ _).mp hplain).1 c (List.mem_reverse.mpr hc)

theorem signed?_cons_minus (digits : List Char) : signed? base ('-' :: digits) =
    (magnitude? base digits).map fun n : Nat => -(n : Int) := by
  cases h : magnitude? base digits <;> simp [signed?, h]

theorem signed?_cons_plus (digits : List Char) : signed? base ('+' :: digits) =
    (magnitude? base digits).map fun n : Nat => (n : Int) := by
  cases h : magnitude? base digits <;> simp [signed?, h]

theorem signed?_of_head (hminus : text.head? ≠ some '-') (hplus : text.head? ≠ some '+') :
    signed? base text = (magnitude? base text).map fun n : Nat => (n : Int) := by
  unfold signed?
  split
  · exact absurd rfl hminus
  · exact absurd rfl hplus
  · cases magnitude? base text <;> rfl

theorem signed?_eq_some_iff (hbase : base ≤ 16) :
    signed? base text = some k ↔ SignedNumeral base text k := by
  constructor
  · intro h
    by_cases hminus : text.head? = some '-'
    · obtain ⟨digits, rfl⟩ := List.head?_eq_some_iff.mp hminus
      rw [signed?_cons_minus] at h
      obtain ⟨n, hn, rfl⟩ := Option.map_eq_some_iff.mp h
      exact .minus ((magnitude?_eq_some_iff hbase).mp hn)
    by_cases hplus : text.head? = some '+'
    · obtain ⟨digits, rfl⟩ := List.head?_eq_some_iff.mp hplus
      rw [signed?_cons_plus] at h
      obtain ⟨n, hn, rfl⟩ := Option.map_eq_some_iff.mp h
      exact .plus ((magnitude?_eq_some_iff hbase).mp hn)
    · rw [signed?_of_head hminus hplus] at h
      obtain ⟨n, hn, rfl⟩ := Option.map_eq_some_iff.mp h
      exact .unsigned ((magnitude?_eq_some_iff hbase).mp hn)
  · intro h
    cases h with
    | unsigned h =>
      have hminus : text.head? ≠ some '-' := fun hc =>
        (h.plain hbase _ (List.mem_of_head? hc)).1 rfl
      have hplus : text.head? ≠ some '+' := fun hc =>
        (h.plain hbase _ (List.mem_of_head? hc)).2.1 rfl
      rw [signed?_of_head hminus hplus, (magnitude?_eq_some_iff hbase).mpr h, Option.map_some]
    | plus h => rw [signed?_cons_plus, (magnitude?_eq_some_iff hbase).mpr h, Option.map_some]
    | minus h => rw [signed?_cons_minus, (magnitude?_eq_some_iff hbase).mpr h, Option.map_some]

/-- Without a mark the letter of a mark has no place. -/
theorem SignedNumeral.unmarked (hbase : base ≤ 16) (h : SignedNumeral base text k) :
    ∀ c ∈ text, c ≠ 'x' ∧ c ≠ 'X' := by
  cases h with
  | unsigned h => exact fun c hc => (h.plain hbase c hc).2.2
  | plus h =>
    refine List.forall_mem_cons.mpr ⟨by decide, fun c hc => (h.plain hbase c hc).2.2⟩
  | minus h =>
    refine List.forall_mem_cons.mpr ⟨by decide, fun c hc => (h.plain hbase c hc).2.2⟩

theorem marked?_eq_some_iff : marked? text = some k ↔ MarkedNumeral text k ∧ Fits k := by
  unfold marked?
  rw [Option.filter_eq_some_iff, decide_eq_true_iff]
  refine and_congr_left fun _ => ?_
  constructor
  · intro h
    split at h
    · exact .hexadecimal (.inl rfl) ((signed?_eq_some_iff (by decide)).mp h)
    · exact .hexadecimal (.inr rfl) ((signed?_eq_some_iff (by decide)).mp h)
    · exact .decimal ((signed?_eq_some_iff (by decide)).mp h)
  · intro h
    cases h with
    | decimal h =>
      split
      · exact absurd rfl (h.unmarked (by decide) 'x' (by simp)).1
      · exact absurd rfl (h.unmarked (by decide) 'X' (by simp)).2
      · exact (signed?_eq_some_iff (by decide)).mpr h
    | hexadecimal hmark h =>
      rcases hmark with rfl | rfl
      · exact (signed?_eq_some_iff (by decide)).mpr h
      · exact (signed?_eq_some_iff (by decide)).mpr h

theorem parse?_of_head (hfirst : word.head? ≠ some '-') : parse? word = marked? word := by
  unfold parse?
  split
  · exact absurd rfl hfirst
  · rfl

theorem parse?_cons_minus_eq_some_iff : parse? ('-' :: text) = some k ↔
    ∃ m, MarkedNumeral text m ∧ Fits m ∧ m ≠ least ∧ -m = k := by
  simp only [parse?, Option.map_eq_some_iff, Option.filter_eq_some_iff, bne_iff_ne,
    marked?_eq_some_iff, and_assoc]

theorem parse?_eq_some_iff : parse? word = some k ↔ Spells word k := by
  constructor
  · intro h
    by_cases hfirst : word.head? = some '-'
    · obtain ⟨text, rfl⟩ := List.head?_eq_some_iff.mp hfirst
      obtain ⟨m, hm, hfits, hleast, rfl⟩ := parse?_cons_minus_eq_some_iff.mp h
      exact .negated hm hfits hleast
    · rw [parse?_of_head hfirst] at h
      obtain ⟨hm, hfits⟩ := marked?_eq_some_iff.mp h
      exact .outright hfirst hm hfits
  · intro h
    cases h with
    | outright hfirst h hfits =>
      rw [parse?_of_head hfirst]
      exact marked?_eq_some_iff.mpr ⟨h, hfits⟩
    | negated h hfits hleast =>
      exact parse?_cons_minus_eq_some_iff.mpr ⟨_, h, hfits, hleast, rfl⟩

end Text.Literal

namespace Assembly.Token

open Text (EndsInColon)
open Text.Literal (Fits Spells least parse?)

variable {word : List Char}

/-- A word that starts like a number is a number or nothing, unless a colon ends it. -/
theorem ofOperandWord_of_startsNumber (hstart : StartsNumber word) (hcolon : ¬ EndsInColon word) :
    ofOperandWord word =
      match parse? word with
      | some n => .ok (.number n)
      | none => .error .invalidNumber := by
  have hletter (r : Register) : ¬ Letters word r := by
    obtain ⟨c, hc, hstart⟩ := hstart
    rintro (rfl | rfl)
    · cases hc
      revert hstart
      cases r <;> decide
    · cases hc
      revert hstart
      cases r <;> decide
  cases hn : parse? word with
  | some n => exact (OperandReads.number hcolon hletter hstart hn).eq
  | none => exact (OperandReads.noNumber hcolon hletter hstart hn).eq

/-- **Which words are numbers, and which numbers they are.** A word is read as a number exactly if
it spells that number: an optional minus in first place, an optional mark, an optional sign and
digits of the base, of which the signed number must fit a word and, behind a minus, have a negative.
Of the words that start like a number, all others are refused as invalid numbers. The decimal text
of every word but the least is read as that word. -/
theorem literals_are_read_by_their_grammar :
    (∀ word n, parse? word = some n ↔ Spells word n) ∧
    (∀ word, StartsNumber word → ¬ EndsInColon word →
      (∀ n, ofOperandWord word = .ok (.number n) ↔ Spells word n) ∧
      (ofOperandWord word = .error .invalidNumber ↔ ∀ n, ¬ Spells word n)) ∧
    ∀ n, Fits n → n ≠ least → parse? (toString n).toList = some n := by
  refine ⟨fun _ _ => Text.Literal.parse?_eq_some_iff, ?_, ?_⟩
  · intro word hstart hcolon
    simp only [ofOperandWord_of_startsNumber hstart hcolon, ← Text.Literal.parse?_eq_some_iff]
    cases parse? word with
    | some n => simp
    | none => simp
  · rintro n ⟨hlow, hhigh⟩ hleast
    exact Text.Literal.parse?_toString (lt_of_le_of_ne hlow hleast.symm) hhigh

/-- Two minuses around the mark cancel, zeros in front do not matter, and the least word has no
negative behind a minus. -/
theorem literals_are_read_by_their_grammar_of_two_minuses :
    let word := "-0x-0A".toList
    let leastNegated := "-0x-8000000000000000".toList
    (StartsNumber word ∧ ¬ EndsInColon word ∧ Spells word 10 ∧
      ofOperandWord word = .ok (.number 10)) ∧
    (StartsNumber leastNegated ∧ ¬ EndsInColon leastNegated ∧ (∀ n, ¬ Spells leastNegated n) ∧
      ofOperandWord leastNegated = .error .invalidNumber) ∧
    Fits (-10) ∧ parse? (toString (-10 : Int)).toList = some (-10) := by
  intro word leastNegated
  obtain ⟨hparse, hword, hdecimal⟩ := literals_are_read_by_their_grammar
  have hstart : StartsNumber word := ⟨'-', rfl, .inr rfl⟩
  have hcolon : ¬ EndsInColon word := by decide
  have hdigits : Text.Literal.Numeral 16 "0A".toList 10 := by
    refine ⟨by decide, [10, 0], ?_, by decide⟩
    exact .cons ⟨by decide, .inr rfl⟩ (.cons ⟨by decide, .inl rfl⟩ .nil)
  have hspells : Spells word 10 :=
    .negated (.hexadecimal (.inl rfl) (.minus hdigits)) (by decide) (by decide)
  have hstart' : StartsNumber leastNegated := ⟨'-', rfl, .inr rfl⟩
  have hcolon' : ¬ EndsInColon leastNegated := by decide
  have hnone (n : Int) : ¬ Spells leastNegated n := by
    rw [← hparse]
    have hleast : parse? leastNegated = none := by decide
    rw [hleast]
    exact nofun
  exact ⟨⟨hstart, hcolon, hspells, ((hword word hstart hcolon).1 10).mpr hspells⟩,
    ⟨hstart', hcolon', hnone, (hword leastNegated hstart' hcolon').2.mpr hnone⟩,
    by decide, hdecimal (-10) (by decide) (by decide)⟩

end Assembly.Token

end TurtleVM
