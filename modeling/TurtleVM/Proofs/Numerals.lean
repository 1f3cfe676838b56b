import TurtleVM.Text.Hexadecimal
import TurtleVM.Text.Literal

/-! # Numerals are read back

Numbers are written in decimal as operands and in hexadecimal as offsets. A literal is read digit by
digit, and the digits of a number are read as that number, also behind zeros:

* `parse?_toString` — a number that fits a word, and has a negative, is read from its decimal text;
* `hexadecimal_inj` — different numbers have different hexadecimal texts.
-/

namespace TurtleVM.Text

namespace Literal

/-! ### Digits -/

/-- The characters of a number are the digits of its base. -/
theorem exists_digitChar_of_mem_toDigits {base n : Nat} {c : Char} (hone : 1 < base)
    (hc : c ∈ Nat.toDigits base n) : ∃ d < base, c = d.digitChar := by
  induction n using Nat.strongRecOn with
  | ind n ih =>
    rw [Nat.toDigits_eq_if hone] at hc
    split at hc
    · rename_i hlt
      exact ⟨n, hlt, List.mem_singleton.mp hc⟩
    · rcases List.mem_append.mp hc with hc | hc
      · exact ih _ (Nat.div_lt_self (by omega) hone) hc
      · exact ⟨n % base, Nat.mod_lt n (by omega), List.mem_singleton.mp hc⟩

theorem digit?_digitChar {base d : Nat} (hbase : base ≤ 16) (hd : d < base) :
    digit? base d.digitChar = some d := by
  have hall : ∀ base ≤ 16, ∀ d < base, digit? base d.digitChar = some d := by decide
  exact hall base hbase d hd

section Digits

variable {base n : Nat}

/-- The number that digits write, zero for no digits. -/
def value? (base : Nat) (digits : List Char) : Option Nat :=
  digits.foldlM (fun n c => (digit? base c).map (base * n + ·)) 0

theorem magnitude?_of_ne_nil {digits : List Char} (h : digits ≠ []) :
    magnitude? base digits = value? base digits := by
  rw [magnitude?, if_neg (by simpa using h)]
  rfl

theorem value?_append_singleton (digits : List Char) (c : Char) :
    value? base (digits ++ [c]) =
      (value? base digits).bind fun n => (digit? base c).map (base * n + ·) := by
  simp [value?, List.foldlM_append]

/-- Digits are read as the number they were written for. -/
theorem value?_toDigits (hone : 1 < base) (hbase : base ≤ 16) (n : Nat) :
    value? base (Nat.toDigits base n) = some n := by
  -- The last digit comes off the end, and the digits before it write a smaller number.
  induction n using Nat.strongRecOn with
  | ind n ih =>
    rw [Nat.toDigits_eq_if hone]
    split
    · rename_i hlt
      show value? base ([] ++ [n.digitChar]) = some n
      rw [value?_append_singleton, digit?_digitChar hbase hlt]
      show some (base * 0 + n) = some n
      rw [Nat.mul_zero, Nat.zero_add]
    · rename_i hle
      have hmod : n % base < base := Nat.mod_lt n (by omega)
      have hdiv : n / base < n := Nat.div_lt_self (by omega) hone
      rw [value?_append_singleton, ih _ hdiv, digit?_digitChar hbase hmod]
      show some (base * (n / base) + n % base) = some n
      rw [Nat.div_add_mod]

/-- Zeros in front do not matter. -/
theorem value?_zeros_append (hone : 1 < base) (hbase : base ≤ 16) (k : Nat) (digits : List Char) :
    value? base (List.replicate k '0' ++ digits) = value? base digits := by
  have hzero : digit? base '0' = some 0 := digit?_digitChar (d := 0) hbase (by omega)
  induction k with
  | zero => rfl
  | succ k ih =>
    rw [← ih, List.replicate_succ, List.cons_append, value?, value?, List.foldlM_cons, hzero]
    rfl

end Digits

/-! ### Decimal literals -/

theorem signed?_of_digits {base : Nat} {digits : List Char}
    (h : ∀ c ∈ digits, c ≠ '-' ∧ c ≠ '+') :
    signed? base digits = (magnitude? base digits).map fun n => (n : Int) := by
  unfold signed?
  split
  · exact absurd rfl (h '-' (List.mem_cons_self ..)).1
  · exact absurd rfl (h '+' (List.mem_cons_self ..)).2
  · rfl

theorem marked?_toDigits {n : Nat} (h : (n : Int) ≤ greatest) :
    marked? (Nat.toDigits 10 n) = some (n : Int) := by
  have hdigit (c : Char) (hc : c ∈ Nat.toDigits 10 n) : c.isDigit = true :=
    Nat.isDigit_of_mem_toDigits (by decide) (by decide) hc
  have hleast : least ≤ (n : Int) := by
    simp only [least]
    omega
  have hfits : Fits n := ⟨hleast, h⟩
  have hsigned : signed? 10 (Nat.toDigits 10 n) = some (n : Int) := by
    rw [signed?_of_digits, magnitude?_of_ne_nil Nat.toDigits_ne_nil,
      value?_toDigits (by decide) (by decide)]
    · rfl
    · intro c hc
      have hc := hdigit c hc
      constructor
      · rintro rfl
        cases hc
      · rintro rfl
        cases hc
  unfold marked?
  -- A mark has a letter in second place, which is no decimal digit.
  split
  · rename_i digits heq
    exact absurd (hdigit 'x' (by simp [heq])) (by decide)
  · rename_i digits heq
    exact absurd (hdigit 'X' (by simp [heq])) (by decide)
  · rw [hsigned, Option.filter_some, if_pos (decide_eq_true hfits)]

theorem parse?_toDigits {n : Nat} (h : (n : Int) ≤ greatest) :
    parse? (Nat.toDigits 10 n) = some (n : Int) := by
  unfold parse?
  split
  · rename_i rest heq
    have hminus : ('-' : Char).isDigit = true :=
      Nat.isDigit_of_mem_toDigits (by decide) (by decide) (heq ▸ List.mem_cons_self ..)
    cases hminus
  · exact marked?_toDigits h

/-- The decimal text of a number is its digits, behind a minus if it is negative. -/
theorem toList_toString (n : Int) : (toString n).toList =
    if n < 0 then '-' :: Nat.toDigits 10 n.natAbs else Nat.toDigits 10 n.natAbs := by
  cases n with
  | ofNat n =>
    rw [if_neg (show ¬ Int.ofNat n < 0 from Int.not_lt.mpr (Int.natCast_nonneg n))]
    show n.repr.toList = Nat.toDigits 10 n
    rw [Nat.repr_eq_ofList_toDigits, String.toList_ofList]
  | negSucc n =>
    rw [if_pos (Int.negSucc_lt_zero n)]
    show ("-" ++ (n + 1).repr).toList = '-' :: Nat.toDigits 10 (n + 1)
    simp only [String.toList_append, Nat.repr_eq_ofList_toDigits, String.toList_ofList]
    rfl

/-- What holds of the minus and of all digits holds of every character of a decimal text. -/
theorem forall_mem_toString {p : Char → Bool} (hminus : p '-' = true)
    (hdigit : ∀ d < 10, p d.digitChar = true) (n : Int) :
    ∀ c ∈ (toString n).toList, p c = true := by
  have hdigits : ∀ c ∈ Nat.toDigits 10 n.natAbs, p c = true := by
    intro c hc
    obtain ⟨d, hd, rfl⟩ := exists_digitChar_of_mem_toDigits (by decide) hc
    exact hdigit d hd
  rw [toList_toString]
  split
  · exact List.forall_mem_cons.mpr ⟨hminus, hdigits⟩
  · exact hdigits

theorem toString_ne_nil (n : Int) : (toString n).toList ≠ [] := by
  rw [toList_toString]
  split
  · exact List.cons_ne_nil _ _
  · exact Nat.toDigits_ne_nil

/-- A word is read from its decimal text, unless it is the one that has no negative. -/
theorem parse?_toString {n : Int} (hleast : least < n) (hgreatest : n ≤ greatest) :
    parse? (toString n).toList = some n := by
  rw [toList_toString]
  split
  · rename_i hneg
    simp only [least] at hleast
    have habs : -(n.natAbs : Int) = n := by omega
    have hfits : (n.natAbs : Int) ≤ greatest := by
      simp only [greatest]
      omega
    have hne : (n.natAbs : Int) ≠ least := by
      simp only [least]
      omega
    show ((marked? (Nat.toDigits 10 n.natAbs)).filter (· != least)).map (fun n => -n) = some n
    rw [marked?_toDigits hfits, Option.filter_some, if_pos (by simpa using hne), Option.map_some,
      habs]
  · rename_i hnonneg
    have habs : (n.natAbs : Int) = n := by omega
    have hfits : (n.natAbs : Int) ≤ greatest := by rwa [habs]
    rw [parse?_toDigits hfits, habs]

/-! ### Range of a literal -/

theorem fits_of_marked? {text : List Char} {n : Int} (h : marked? text = some n) : Fits n := by
  obtain ⟨-, hfits⟩ := Option.filter_eq_some_iff.mp h
  exact of_decide_eq_true hfits

/-- Whatever a literal writes is a word. -/
theorem fits_of_parse? {text : List Char} {n : Int} (h : parse? text = some n) : Fits n := by
  unfold parse? at h
  split at h
  · rename_i rest
    obtain ⟨m, hm, rfl⟩ := Option.map_eq_some_iff.mp h
    obtain ⟨hmarked, hne⟩ := Option.filter_eq_some_iff.mp hm
    obtain ⟨hleast, hgreatest⟩ := fits_of_marked? hmarked
    have hne : m ≠ least := by simpa using hne
    simp only [Fits, least, greatest] at *
    omega
  · exact fits_of_marked? h

end Literal

/-! ### Hexadecimal text -/

section Hexadecimal

variable {width n : Nat}

/-- The digits behind the mark. -/
theorem toList_hexadecimal (width n : Nat) : (hexadecimal width n).toList =
    '0' :: 'x' ::
      (List.replicate (width - (Nat.toDigits 16 n).length) '0' ++ Nat.toDigits 16 n) := by
  simp only [hexadecimal, String.toList_append, String.toList_ofList]
  rfl

theorem value?_drop_hexadecimal (width n : Nat) :
    Literal.value? 16 ((hexadecimal width n).toList.drop 2) = some n := by
  rw [toList_hexadecimal]
  show Literal.value? 16 (_ ++ _) = some n
  rw [Literal.value?_zeros_append (by decide) (by decide),
    Literal.value?_toDigits (by decide) (by decide)]

/-- Different numbers have different texts. -/
theorem hexadecimal_inj {m : Nat} (h : hexadecimal width n = hexadecimal width m) : n = m := by
  have hvalue := value?_drop_hexadecimal width n
  rw [h, value?_drop_hexadecimal] at hvalue
  exact (Option.some.inj hvalue).symm

/-- Offsets that fit a word have four digits. -/
theorem length_hexadecimal_four (h : n < 65536) : (hexadecimal 4 n).toList.length = 6 := by
  have hle : (Nat.toDigits 16 n).length ≤ 4 :=
    (Nat.length_toDigits_le_iff (by decide) (by decide)).mpr h
  rw [toList_hexadecimal]
  simp only [List.length_cons, List.length_append, List.length_replicate]
  omega

/-- What holds of the mark and of all digits holds of every character of a hexadecimal text. -/
theorem forall_mem_hexadecimal {p : Char → Bool} (hmark : p 'x' = true)
    (hdigit : ∀ d < 16, p d.digitChar = true) :
    ∀ c ∈ (hexadecimal width n).toList, p c = true := by
  intro c hc
  rw [toList_hexadecimal, List.mem_cons, List.mem_cons, List.mem_append] at hc
  rcases hc with rfl | rfl | hc | hc
  · exact hdigit 0 (by decide)
  · exact hmark
  · obtain rfl := List.eq_of_mem_replicate hc
    exact hdigit 0 (by decide)
  · obtain ⟨d, hd, rfl⟩ := Literal.exists_digitChar_of_mem_toDigits (by decide) hc
    exact hdigit d hd

end Hexadecimal

end TurtleVM.Text
