import TurtleVM.Bytecode

/-! # The linear walk over code

Disassembling reads instructions one after the other from offset 0, each starting where the one
before it ended. The walk ends at the end of the code, or at the first offset where no
instruction can be decoded: that offset is reported as the last item.

`Walk.next?` takes one step, and `Bytecode.walk` collects the items of a whole walk.
-/

namespace TurtleVM.Bytecode

/-- An instruction and the offset where it starts. -/
structure Located where
  offset : Nat
  instruction : Instruction
  deriving DecidableEq

/-- An offset where no instruction can be decoded. -/
structure Undecodable where
  offset : Nat
  error : DecodeError
  deriving DecidableEq

/-- What to tell about an offset without an instruction. -/
def Undecodable.message (u : Undecodable) : String :=
  "offset " ++ toString u.offset ++ ": " ++ u.error.message

/-- One item of a walk. -/
abbrev Item := Except Undecodable Located

/-- A walk in progress. -/
structure Walk where
  code : Bytes
  /-- Where the next instruction starts. -/
  offset : Nat
  /-- An undecodable offset has been reported. -/
  failed : Bool

namespace Walk

/-- A walk that has not yet read anything. -/
def start (code : Bytes) : Walk := ⟨code, 0, false⟩

/-- The next item and the walk after it, nothing at the end. -/
def next? (w : Walk) : Option (Item × Walk) :=
  if w.failed = true ∨ w.code.size ≤ w.offset then none
  else
    match decode w.code w.offset with
    | .ok i => some (.ok ⟨w.offset, i⟩, { w with offset := w.offset + i.width })
    | .error e => some (.error ⟨w.offset, e⟩, { w with failed := true })

/-- Bytes still to be read, none after a failure. -/
def remaining (w : Walk) : Nat := if w.failed then 0 else w.code.size - w.offset

/-- Each item uses up some of the code. -/
theorem remaining_next? {w w' : Walk} {item : Item} (h : w.next? = some (item, w')) :
    w'.remaining < w.remaining := by
  unfold next? at h
  split at h
  · cases h
  · rename_i hgo
    simp only [not_or, Bool.not_eq_true, Nat.not_le] at hgo
    split at h
    · rename_i i _
      cases h
      have := i.width_pos
      simp only [remaining, hgo.1, Bool.false_eq_true, ↓reduceIte]
      omega
    · cases h
      simp only [remaining, hgo.1, ↓reduceIte, Bool.false_eq_true]
      omega

/-- The items still to come, behind those already taken, which are given last first. -/
def collect (w : Walk) (taken : List Item) : List Item :=
  match _h : w.next? with
  | none => taken.reverse
  | some (item, w') => w'.collect (item :: taken)
termination_by w.remaining
decreasing_by exact remaining_next? _h

/-- The items still to come. -/
def items (w : Walk) : List Item := w.collect []

theorem collect_of_none {w : Walk} (h : w.next? = none) (taken : List Item) :
    w.collect taken = taken.reverse := by
  rw [collect]; split <;> simp_all

theorem collect_of_some {w w' : Walk} {item : Item} (h : w.next? = some (item, w'))
    (taken : List Item) : w.collect taken = w'.collect (item :: taken) := by
  rw [collect]; split <;> simp_all

/-- What was taken before stays in front. -/
theorem collect_append (w : Walk) (later earlier : List Item) :
    w.collect (later ++ earlier) = earlier.reverse ++ w.collect later := by
  fun_induction collect w later with
  | case1 w later h => rw [collect_of_none h]; simp
  | case2 w later item w' h ih => rw [collect_of_some h, ← ih]; rfl

theorem items_of_none {w : Walk} (h : w.next? = none) : w.items = [] :=
  collect_of_none h []

theorem items_of_some {w w' : Walk} {item : Item} (h : w.next? = some (item, w')) :
    w.items = item :: w'.items := by
  rw [items, collect_of_some h]
  exact collect_append w' [] [item]

end Walk

/-- All items of the walk over a code. -/
def walk (code : Bytes) : List Item := (Walk.start code).items

end TurtleVM.Bytecode
