/-! # Bytes and sixteen-bit words

Immediates, jump targets and canvas sides are stored as 16-bit words, low byte first. Pixels and
sets of offsets are rows of bytes whose bits are set one by one.
-/

namespace TurtleVM

/-- Code, images and canvases are arrays of bytes. -/
abbrev Bytes := Array UInt8

/-- After the bits of a mask have been set in a byte, none of the bits of another mask is set
exactly if none was set before and the masks do not meet. -/
theorem or_and_eq_zero_iff (byte mask other : UInt8) :
    (byte ||| mask) &&& other = 0 ↔ byte &&& other = 0 ∧ mask &&& other = 0 := by
  have hdistrib : (byte ||| mask) &&& other = (byte &&& other) ||| (mask &&& other) :=
    UInt8.toBitVec_inj.mp BitVec.and_or_distrib_right
  rw [hdistrib, UInt8.or_eq_zero_iff]

namespace Word

/-- The low byte of a word, then the high byte. -/
def bytes (w : UInt16) : List UInt8 := [w.toUInt8, (w >>> 8).toUInt8]

/-- The word of a low and a high byte. -/
def ofBytes (low high : UInt8) : UInt16 := low.toUInt16 + 256 * high.toUInt16

@[simp] theorem ofBytes_low_high (w : UInt16) :
    ofBytes w.toUInt8 (w >>> 8).toUInt8 = w := by
  apply UInt16.toNat_inj.mp
  have := w.toNat_lt
  simp [ofBytes, Nat.shiftRight_eq_div_pow]
  omega

@[simp] theorem bytes_ofBytes (low high : UInt8) : bytes (ofBytes low high) = [low, high] := by
  have hl := low.toNat_lt
  have hh := high.toNat_lt
  simp only [bytes, ofBytes, List.cons.injEq, and_true]
  constructor
  · apply UInt8.toNat_inj.mp
    simp
  · apply UInt8.toNat_inj.mp
    simp [Nat.shiftRight_eq_div_pow]
    omega

@[simp] theorem length_bytes (w : UInt16) : (bytes w).length = 2 := rfl

end Word

end TurtleVM
