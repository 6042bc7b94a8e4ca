import Mathlib.Algebra.Group.Nat.Defs
import Mathlib.Data.Nat.Log

/-! Numbers as decimal text. -/

namespace Decimal

/-- The decimal digits of a number, as bytes, without leading zeros; `%u` and `%d` of a number
that is not negative. -/
def text (n : Nat) : List UInt8 := (Nat.toDigits 10 n).map fun c => UInt8.ofNat c.toNat

/-- `%d` -/
def signed (x : Int) : List UInt8 := if x < 0 then 45 :: text x.natAbs else text x.natAbs

/-- `%d` for a `u32`, which is taken as an `int`. -/
def int32 (x : UInt32) : List UInt8 := signed x.toBitVec.toInt

/-- Texts of numbers with a separator between them. -/
def joined (separator : List UInt8) (values : List UInt32) : List UInt8 :=
  separator.intercalate (values.map fun x => text x.toNat)

variable {n k : Nat}

theorem text_ne_nil (n : Nat) : text n ≠ [] := by
  simp [text]

/-- The bytes of a text are the digits `0` to `9` of the character set. -/
theorem digit_of_mem_text {c : UInt8} (hc : c ∈ text n) : 48 ≤ c.toNat ∧ c.toNat ≤ 57 := by
  rw [text, List.mem_map] at hc
  obtain ⟨d, hd, rfl⟩ := hc
  have hdigit : d.isDigit = true := Nat.isDigit_of_mem_toDigits (by decide) (by decide) hd
  have hrange : 48 ≤ d.toNat ∧ d.toNat ≤ 57 := by
    simpa [Char.isDigit, UInt32.le_iff_toNat_le] using hdigit
  simp only [UInt8.toNat_ofNat']
  omega

/-- How many digits a number takes: `k` digits suffice exactly for the numbers below the `k`-th
power of ten. -/
theorem length_text_le_iff (hk : 0 < k) : (text n).length ≤ k ↔ n < 10 ^ k := by
  rw [text, List.length_map, Nat.length_toDigits_le_iff (by decide) hk]

/-- The number of digits by way of the logarithm. -/
theorem length_text (hn : n ≠ 0) : (text n).length = Nat.log 10 n + 1 := by
  have hpos : 0 < (text n).length := List.length_pos_iff.mpr (text_ne_nil n)
  apply Nat.le_antisymm
  · rw [length_text_le_iff (Nat.succ_pos _)]
    exact Nat.lt_pow_succ_log_self (by decide) n
  · exact Nat.log_lt_of_lt_pow hn ((length_text_le_iff hpos).mp (Nat.le_refl _))

/-- A text has a first digit, which no sign is. -/
theorem text_head (n : Nat) : ∃ c rest, text n = c :: rest ∧ c ≠ 45 := by
  obtain ⟨c, rest, htext⟩ := List.exists_cons_of_ne_nil (text_ne_nil n)
  refine ⟨c, rest, htext, ?_⟩
  rintro rfl
  have hdigit := digit_of_mem_text (n := n) (c := 45) (by simp [htext])
  simp at hdigit

/-- The text of a number can be the inside of a C string, as it has no NUL. -/
theorem nul_not_mem_text (n : Nat) : 0 ∉ text n := by
  intro hmem
  have hdigit := digit_of_mem_text hmem
  simp at hdigit

variable {x : UInt32}

/-- A value below 2^31 has the same text as a number with and without sign. -/
theorem int32_of_lt (h : x.toNat < 2147483648) : int32 x = text x.toNat := by
  have hvalue : x.toBitVec.toInt = x.toNat := by
    rw [BitVec.toInt_eq_toNat_of_lt]
    · rfl
    · change 2 * x.toNat < 4294967296
      omega
  rw [int32, hvalue, signed, if_neg (by omega)]
  rfl

/-- A value from 2^31 on is read as a negative number: its text is a minus sign and the distance
to 2^32. -/
theorem int32_of_ge (h : 2147483648 ≤ x.toNat) : int32 x = 45 :: text (4294967296 - x.toNat) := by
  have hlt := x.toNat_lt
  have hvalue : x.toBitVec.toInt = x.toNat - 4294967296 := by
    rw [BitVec.toInt_eq_toNat_cond, if_neg]
    · rfl
    · change ¬2 * x.toNat < 4294967296
      omega
  rw [int32, hvalue, signed, if_pos (by omega)]
  congr 2
  omega

theorem nul_not_mem_int32 (x : UInt32) : 0 ∉ int32 x := by
  rw [int32, signed]
  split
  · simp [nul_not_mem_text]
  · exact nul_not_mem_text _

/-- The text of a number without sign has at most ten digits. -/
theorem length_int32_le_of_lt (h : x.toNat < 2147483648) : (int32 x).length ≤ 10 := by
  rw [int32_of_lt h, length_text_le_iff (by decide)]
  omega

/-- A `u32` that is printed by `%d` takes eleven bytes at most: ten digits and the sign. -/
theorem length_int32_le (x : UInt32) : (int32 x).length ≤ 11 := by
  by_cases h : x.toNat < 2147483648
  · exact Nat.le_succ_of_le (length_int32_le_of_lt h)
  · have hlength : (text (4294967296 - x.toNat)).length ≤ 10 := by
      rw [length_text_le_iff (by decide)]
      omega
    rw [int32_of_ge (Nat.le_of_not_lt h), List.length_cons]
    omega

/-- A text that starts as that of the signed number does is not that of the unsigned one. -/
theorem lt_of_text_eq_int32 {rest rest' : List UInt8} (h : int32 x ++ rest = text x.toNat ++ rest') : x.toNat < 2147483648 := by
  by_contra hge
  obtain ⟨c, digits, htext, hc⟩ := text_head x.toNat
  rw [int32_of_ge (Nat.le_of_not_lt hge), htext] at h
  simp only [List.cons_append, List.cons.injEq] at h
  exact hc h.1.symm

section Joined

variable {separator : List UInt8} {values : List UInt32}

@[simp] theorem joined_singleton (separator : List UInt8) (x : UInt32) : joined separator [x] = text x.toNat := by
  simp [joined]

theorem joined_cons (h : values ≠ []) :
    joined separator (x :: values) = text x.toNat ++ (separator ++ joined separator values) := by
  rw [joined, List.map_cons, List.intercalate_cons_of_ne_nil (by simpa using h)]
  simp [joined]

/-- The first number is at the start of the text, whatever follows it. -/
theorem text_prefix_joined (separator : List UInt8) (x : UInt32) (values : List UInt32) :
    text x.toNat <+: joined separator (x :: values) := by
  by_cases h : values = []
  · simp [h]
  · simp [joined_cons h]

/-- A list of numbers has no NUL in its text unless the separator brings one. -/
theorem nul_not_mem_joined (hseparator : 0 ∉ separator) (values : List UInt32) : 0 ∉ joined separator values := by
  induction values with
  | nil => simp [joined]
  | cons x values ih =>
    by_cases h : values = []
    · simp [h, nul_not_mem_text]
    · simp [joined_cons h, nul_not_mem_text, hseparator, ih]

end Joined

end Decimal
