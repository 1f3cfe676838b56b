import TurtleVM.Bytecode.OffsetSet

/-! # A set of offsets holds what was marked

The mark of an offset is one bit of one byte. Offsets that share a byte have bits of their own
(`masks_meet_iff`), so marking one offset adds this offset to the set and no other
(`contains_mark_iff`). `marked_offsets_are_exact` is the main statement: after any number of marks
the set holds just the offsets that were marked, less those beyond the last byte, which leave no
trace.
-/

namespace TurtleVM.Bytecode.OffsetSet

variable {s : OffsetSet} {offset other : Nat}

/-! ### Places -/

/-- The bytes of the row have room for the offsets that a target can express, and for no others. -/
theorem place_fst_lt_iff (offset : Nat) : (place offset).1 < markBytes ↔ offset < addressable := by
  simp only [place, markBytes, addressable]
  omega

/-- Two masks meet exactly if they are masks of the same bit. -/
theorem place_snd_and_eq_zero_iff (offset other : Nat) :
    (place offset).2 &&& (place other).2 = 0 ↔ offset % 8 ≠ other % 8 := by
  have hall : ∀ i < 8, ∀ j < 8,
      ((1 : UInt8) <<< UInt8.ofNat i) &&& ((1 : UInt8) <<< UInt8.ofNat j) = 0 ↔ i ≠ j := by
    decide
  exact hall _ (Nat.mod_lt offset (by decide)) _ (Nat.mod_lt other (by decide))

/-- Within a byte no two offsets share a bit. -/
theorem masks_meet_iff (hbyte : (place offset).1 = (place other).1) :
    (place offset).2 &&& (place other).2 ≠ 0 ↔ offset = other := by
  rw [ne_eq, place_snd_and_eq_zero_iff]
  have hdiv : offset / 8 = other / 8 := hbyte
  omega

/-! ### Marking and looking up -/

theorem mark_of_lt (h : (place offset).1 < markBytes) : s.mark offset =
    ⟨s.marks.set (place offset).1 (s.marks[(place offset).1] ||| (place offset).2)⟩ :=
  dif_pos h

theorem mark_of_le (h : addressable ≤ offset) : s.mark offset = s :=
  dif_neg (mt (place_fst_lt_iff offset).mp (Nat.not_lt.mpr h))

theorem contains_of_lt (h : (place offset).1 < markBytes) :
    s.contains offset = (s.marks[(place offset).1] &&& (place offset).2 != 0) :=
  dif_pos h

theorem contains_of_le (h : addressable ≤ offset) : s.contains offset = false :=
  dif_neg (mt (place_fst_lt_iff offset).mp (Nat.not_lt.mpr h))

/-- Marking an offset adds it to the set if a target can express it, and adds nothing else. -/
theorem contains_mark_iff (s : OffsetSet) (offset other : Nat) :
    (s.mark offset).contains other = true ↔
      s.contains other = true ∨ other = offset ∧ other < addressable := by
  by_cases hother : other < addressable
  · have hplace := (place_fst_lt_iff other).mpr hother
    rw [contains_of_lt hplace, contains_of_lt hplace, bne_iff_ne, bne_iff_ne, and_iff_left hother]
    by_cases hbyte : (place offset).1 = (place other).1
    · -- The marks share a byte, so the masks tell whether it is the same mark.
      rw [eq_comm (a := other), ← masks_meet_iff hbyte, mark_of_lt (hbyte ▸ hplace)]
      simp only [hbyte, Vector.getElem_set_self, ne_eq, or_and_eq_zero_iff]
      exact Classical.not_and_iff_not_or_not
    · have hne : other ≠ offset := by
        rintro rfl
        exact hbyte rfl
      by_cases hoffset : offset < addressable
      · rw [mark_of_lt ((place_fst_lt_iff offset).mpr hoffset)]
        simp only [Vector.getElem_set_ne _ _ hbyte, hne, or_false]
      · rw [mark_of_le (Nat.not_lt.mp hoffset)]
        simp only [hne, or_false]
  · -- Beyond the last byte nothing is ever found.
    have hle := Nat.not_lt.mp hother
    simp only [contains_of_le hle, hother, and_false, or_false]

/-- What one mark adds, a list of marks adds for each of its offsets. -/
theorem contains_foldl_mark_iff (offsets : List Nat) (s : OffsetSet) (offset : Nat) :
    (offsets.foldl mark s).contains offset = true ↔
      s.contains offset = true ∨ offset ∈ offsets ∧ offset < addressable := by
  induction offsets generalizing s with
  | nil => simp
  | cons first offsets ih =>
    rw [List.foldl_cons, ih, contains_mark_iff, or_assoc, ← or_and_right, List.mem_cons]

/-- **The set is exact.** Whatever offsets are marked on an empty set, and in whatever order, it
holds an offset exactly if this is one of them and a target can express it. Marking any other
offset leaves every byte of the set as it was. -/
theorem marked_offsets_are_exact (offsets : List Nat) :
    (∀ offset, (ofList offsets).contains offset = true ↔
      offset < addressable ∧ offset ∈ offsets) ∧
    ∀ (s : OffsetSet) (offset : Nat), addressable ≤ offset → s.mark offset = s := by
  refine ⟨fun offset => ?_, fun s offset hfar => mark_of_le hfar⟩
  rw [ofList, contains_foldl_mark_iff, contains_empty, and_comm]
  simp only [Bool.false_eq_true, false_or]

/-- The last offset of the row is held. One beyond it is not, and neither is the one that it would
be taken for if the row started over: 65544 is 65536 + 8. -/
theorem marked_offsets_are_exact_at_the_edge :
    (ofList [9, 65535, 65544]).contains 65535 = true ∧
      ¬ (ofList [9, 65535, 65544]).contains 8 = true ∧
      ¬ (ofList [9, 65535, 65544]).contains 65544 = true ∧
      addressable ≤ 65544 ∧ (ofList [9, 65535]).mark 65544 = ofList [9, 65535] := by
  obtain ⟨hcontains, hfar⟩ := marked_offsets_are_exact [9, 65535, 65544]
  have hedge : addressable ≤ 65544 := by decide
  exact ⟨(hcontains 65535).mpr (by decide), mt (hcontains 8).mp (by decide),
    mt (hcontains 65544).mp (by decide), hedge, hfar (ofList [9, 65535]) 65544 hedge⟩

end TurtleVM.Bytecode.OffsetSet
