import Mathlib.Logic.Function.Basic
import Mathlib.Tactic.IntervalCases

/-- A set of numbers, eight to a byte. -/
abbrev Bitmap := Nat → UInt8

namespace Bitmap

/-- `1 << (i & 7)` -/
def mask (i : Nat) : UInt8 := 1 <<< UInt8.ofNat (i % 8)

/-- `bytes[i >> 3] & (1 << (i & 7))` -/
def test (bytes : Bitmap) (i : Nat) : Bool := bytes (i / 8) &&& mask i != 0

/-- `bytes[i >> 3] |= 1 << (i & 7)` -/
def set (bytes : Bitmap) (i : Nat) : Bitmap := Function.update bytes (i / 8) (bytes (i / 8) ||| mask i)

/-- The first `size` bytes without the bits of another bitmap: `bytes[j] &= ~other[j]` -/
def remove (bytes other : Bitmap) (size : Nat) : Bitmap := fun j =>
  if j < size then bytes j &&& ~~~ other j else bytes j

/-- As a bit vector the mask is a power of two: the one bit that stands for the number within
its byte. -/
theorem mask_toBitVec (i : Nat) : (mask i).toBitVec = BitVec.twoPow 8 (i % 8) := by
  unfold mask
  have hlt : i % 8 < 8 := Nat.mod_lt _ (by decide)
  interval_cases i % 8 <;> decide

/-- A byte has a bit of its own for each of its eight numbers. -/
theorem and_mask (byte : UInt8) (i : Nat) : (byte &&& mask i != 0) = byte.toBitVec.getLsbD (i % 8) := by
  have hlt : i % 8 < 8 := Nat.mod_lt _ (by decide)
  have hand : (byte &&& mask i).toBitVec = if byte.toBitVec.getLsbD (i % 8) then BitVec.twoPow 8 (i % 8) else 0#8 := by
    rw [UInt8.toBitVec_and, mask_toBitVec, BitVec.and_twoPow]
  have hpow : BitVec.twoPow 8 (i % 8) ≠ 0#8 := by
    interval_cases i % 8 <;> decide
  cases hbit : byte.toBitVec.getLsbD (i % 8) with
  | false =>
    rw [hbit, if_neg Bool.false_ne_true] at hand
    rw [bne_eq_false_iff_eq]
    exact UInt8.toBitVec_inj.mp hand
  | true =>
    rw [hbit, if_pos rfl] at hand
    rw [bne_iff_ne]
    intro hzero
    rw [hzero] at hand
    exact hpow hand.symm

/-- A test reads one bit of one byte. The other lemmas on bitmaps are stated about these bits.
-/
theorem test_eq (bytes : Bitmap) (i : Nat) : bytes.test i = (bytes (i / 8)).toBitVec.getLsbD (i % 8) := and_mask ..

/-- Setting a number changes the answer for that number only. No bound on the number is needed,
as a bitmap is a function of the byte index. -/
theorem test_set (bytes : Bitmap) (i k : Nat) : (bytes.set i).test k = (bytes.test k || decide (i = k)) := by
  have hlt : k % 8 < 8 := Nat.mod_lt _ (by decide)
  rw [test_eq, test_eq, set]
  by_cases hbyte : k / 8 = i / 8
  · have hbit : i % 8 = k % 8 ↔ i = k := by omega
    rw [hbyte, Function.update_self, UInt8.toBitVec_or, BitVec.getLsbD_or, mask_toBitVec, BitVec.getLsbD_twoPow]
    simp [hbit, Nat.mod_lt]
  · have hne : i ≠ k := by
      rintro rfl
      exact hbyte rfl
    rw [Function.update_of_ne hbyte, decide_eq_false hne, Bool.or_false]

/-- Removing another bitmap takes its numbers out of the bytes that are walked over. Nothing is
said of the bytes behind them. -/
theorem test_remove {size i : Nat} (bytes other : Bitmap) (hi : i / 8 < size) :
    (bytes.remove other size).test i = (bytes.test i && !other.test i) := by
  have hlt : i % 8 < 8 := Nat.mod_lt _ (by decide)
  rw [test_eq, test_eq, test_eq, remove, if_pos hi, UInt8.toBitVec_and, UInt8.toBitVec_not, BitVec.getLsbD_and,
    BitVec.getLsbD_not, decide_eq_true hlt, Bool.true_and]

/-- All bits are set in bytes of 255. -/
theorem test_full (i : Nat) : test (fun _ => 255) i = true := by
  have hlt : i % 8 < 8 := Nat.mod_lt _ (by decide)
  rw [test_eq]
  interval_cases i % 8 <;> decide

end Bitmap
