/-! # Integer literals

A literal is an optional minus, an optional mark `0x`, and then a *signed* run of digits: the
digits themselves may carry one more sign, so that `--5` is five. The signed run is read in the
base the mark announces and must fit a signed 64-bit word; the leading minus then negates it,
which fails for the one word that has no negative.
-/

namespace TurtleVM.Text.Literal

/-- The value of a digit of the base, either case. -/
def digit? (base : Nat) (c : Char) : Option Nat :=
  let value? : Option Nat :=
    if '0' ≤ c ∧ c ≤ '9' then some (c.toNat - '0'.toNat)
    else if 'a' ≤ c ∧ c ≤ 'f' then some (c.toNat - 'a'.toNat + 10)
    else if 'A' ≤ c ∧ c ≤ 'F' then some (c.toNat - 'A'.toNat + 10)
    else none
  value?.filter (· < base)

/-- The number that one or more digits write, most significant first. -/
def magnitude? (base : Nat) (digits : List Char) : Option Nat :=
  if digits.isEmpty then none
  else digits.foldlM (fun n c => (digit? base c).map (base * n + ·)) 0

/-- Digits with at most one sign before them. -/
def signed? (base : Nat) : List Char → Option Int
  | '-' :: digits => (magnitude? base digits).map fun n => -(n : Int)
  | '+' :: digits => (magnitude? base digits).map fun n => (n : Int)
  | digits => (magnitude? base digits).map fun n => (n : Int)

/-- The least signed 64-bit word. -/
def least : Int := -9223372036854775808

/-- The greatest signed 64-bit word. -/
def greatest : Int := 9223372036854775807

/-- The number is a signed 64-bit word. -/
def Fits (n : Int) : Prop := least ≤ n ∧ n ≤ greatest

instance (n : Int) : Decidable (Fits n) := inferInstanceAs (Decidable (_ ∧ _))

/-- A signed run in the base that its mark announces, ten without a mark. -/
def marked? (text : List Char) : Option Int :=
  let n? := match text with
    | '0' :: 'x' :: digits => signed? 16 digits
    | '0' :: 'X' :: digits => signed? 16 digits
    | digits => signed? 10 digits
  n?.filter fun n => decide (Fits n)

/-- The value of a literal. A minus in first place always stands outside the mark. -/
def parse? : List Char → Option Int
  | '-' :: rest => ((marked? rest).filter (· != least)).map fun n => -n
  | text => marked? text

example : parse? "-0x10".toList = some (-16) := by decide
example : parse? "--5".toList = some 5 := by decide
example : parse? "0x-8000000000000000".toList = some least := by decide
example : parse? "-0x-8000000000000000".toList = none := by decide
example : parse? "0x".toList = none := by decide

end TurtleVM.Text.Literal
