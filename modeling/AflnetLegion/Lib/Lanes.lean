import AflnetLegion.Lib.Words
import Mathlib.Algebra.Group.Nat.Defs

/-! Arithmetic on a word that is arithmetic on each of its bytes. -/

namespace Words

variable {w k : Nat} {a b bytes : List UInt8} {byte : UInt8}

/-- The value of a word by its lowest byte and the word of the others, as long as all of them
fit. -/
theorem toNat_load_cons (hw : 8 * (byte :: bytes).length ≤ w) :
    (load w (byte :: bytes)).toNat = byte.toNat + 256 * (load w bytes).toNat := by
  have hbyte : 8 ≤ w := by
    rw [List.length_cons] at hw
    omega
  have hlow : ((load w (byte :: bytes)).setWidth 8).toNat = byte.toBitVec.toNat := congrArg BitVec.toNat (load_cons_setWidth hbyte)
  rw [BitVec.toNat_setWidth] at hlow
  have hhigh := congrArg BitVec.toNat (load_cons_shift hw)
  rw [BitVec.toNat_ushiftRight, Nat.shiftRight_eq_div_pow] at hhigh
  rw [← hhigh, ← UInt8.toNat_toBitVec, ← hlow, Nat.mod_add_div]

/-- No byte of a sum overflows. -/
def Adds (a b : List UInt8) : Prop := ∀ p ∈ a.zip b, p.1.toNat + p.2.toNat < 256

/-- No byte of a difference needs to borrow. -/
def Subtracts (a b : List UInt8) : Prop := ∀ p ∈ a.zip b, p.2 ≤ p.1

/-- When no byte of a sum overflows, the bytes can be added one by one: the value of the result
is the sum of the values. -/
theorem toNat_load_add (hlength : a.length = b.length) (hw : 8 * a.length ≤ w) (h : Adds a b) :
    (load w (a.zipWith (· + ·) b)).toNat = (load w a).toNat + (load w b).toNat := by
  induction a generalizing b with
  | nil =>
    obtain rfl := List.eq_nil_of_length_eq_zero hlength.symm
    simp [load]
  | cons x a ih =>
    obtain ⟨y, b, rfl⟩ := List.exists_cons_of_length_eq_add_one hlength.symm
    obtain ⟨hbyte, hrest⟩ := List.forall_mem_cons.mp h
    have htail : a.length = b.length := Nat.succ.inj hlength
    have hsum : (x + y).toNat = x.toNat + y.toNat := by
      rw [UInt8.toNat_add]
      exact Nat.mod_eq_of_lt hbyte
    have hzip : (a.zipWith (· + ·) b).length = a.length := by simp [htail]
    rw [List.length_cons] at hw
    rw [List.zipWith_cons_cons, toNat_load_cons (by rw [List.length_cons, hzip]; exact hw), toNat_load_cons hw,
      toNat_load_cons (by rw [List.length_cons, ← htail]; exact hw), ih htail (by omega) hrest, hsum]
    omega

/-- A sum of words is the word of the sums of their bytes if none of these overflows, since no
carry enters the next byte. -/
theorem load_add (hlength : a.length = b.length) (hw : 8 * a.length ≤ w) (h : Adds a b) :
    load w a + load w b = load w (a.zipWith (· + ·) b) := by
  apply BitVec.eq_of_toNat_eq
  have hsum := toNat_load_add hlength hw h
  have hlt := (load w (a.zipWith (· + ·) b)).isLt
  rw [BitVec.toNat_add, ← hsum, Nat.mod_eq_of_lt hlt]

/-- A difference of words is the word of the differences of their bytes if none of these
borrows. -/
theorem load_sub (hlength : a.length = b.length) (hw : 8 * a.length ≤ w) (h : Subtracts a b) :
    load w a - load w b = load w (a.zipWith (· - ·) b) := by
  have hback : (a.zipWith (· - ·) b).zipWith (· + ·) b = a := by
    refine List.ext_getElem (by simp [hlength]) fun i hi hi' => ?_
    simp
  have hzip : (a.zipWith (· - ·) b).length = a.length := by simp [hlength]
  have hadds : Adds (a.zipWith (· - ·) b) b := by
    intro p hp
    obtain ⟨i, hi, rfl⟩ := List.getElem_of_mem hp
    have hin : i < (a.zip b).length := by simpa [hlength] using hi
    have hle := h _ (List.getElem_mem hin)
    rw [List.getElem_zip] at hle
    simp only [List.getElem_zip, List.getElem_zipWith]
    rw [UInt8.toNat_sub_of_le _ _ hle, Nat.sub_add_cancel (UInt8.le_iff_toNat_le.mp hle)]
    exact UInt8.toNat_lt _
  have hsum := load_add (w := w) (hzip.trans hlength) (by rw [hzip]; exact hw) hadds
  rw [hback] at hsum
  rw [← hsum, BitVec.add_sub_cancel]

/-- The bytes of a word that is shifted to the right: what leaves a byte enters the one before. -/
def shifted (k : Nat) : List UInt8 → List UInt8
  | [] => []
  | byte :: bytes => ⟨byte.toBitVec >>> k ||| (bytes.headD 0).toBitVec <<< (8 - k)⟩ :: shifted k bytes

@[simp] theorem length_shifted (k : Nat) (bytes : List UInt8) : (shifted k bytes).length = bytes.length := by
  induction bytes with
  | nil => rfl
  | cons byte bytes ih => rw [shifted, List.length_cons, List.length_cons, ih]

/-- Each byte of a shifted word consists of the high bits of the byte in its place and the low
bits of the next one. -/
theorem getD_shifted (k : Nat) (bytes : List UInt8) (i : Nat) :
    ((shifted k bytes).getD i 0).toBitVec = (bytes.getD i 0).toBitVec >>> k ||| (bytes.getD (i + 1) 0).toBitVec <<< (8 - k) := by
  induction bytes generalizing i with
  | nil => simp [shifted]
  | cons byte bytes ih =>
    cases i with
    | zero => cases bytes <;> rfl
    | succ i => exact ih i

/-- The bits of a word and of the bytes behind it, which are 0. -/
theorem getLsbD_load_all (hw : 8 * bytes.length ≤ w) (i : Nat) :
    (load w bytes).getLsbD i = (bytes.getD (i / 8) 0).toBitVec.getLsbD (i % 8) := by
  by_cases hi : i < w
  · exact getLsbD_load hi
  · have hnone : bytes[i / 8]? = none := List.getElem?_eq_none (by omega)
    rw [BitVec.getLsbD_of_ge _ _ (Nat.le_of_not_lt hi), List.getD_eq_getElem?_getD, hnone]
    exact BitVec.getLsbD_zero.symm

theorem load_shift (hk : k < 8) (hw : 8 * bytes.length ≤ w) : load w bytes >>> k = load w (shifted k bytes) := by
  apply BitVec.eq_of_getLsbD_eq
  intro i hi
  rw [BitVec.getLsbD_ushiftRight, getLsbD_load_all hw, getLsbD_load hi, getD_shifted, BitVec.getLsbD_or,
    BitVec.getLsbD_ushiftRight, BitVec.getLsbD_shiftLeft]
  by_cases hsame : i % 8 + k < 8
  · have hdiv : (k + i) / 8 = i / 8 := by omega
    have hmod : (k + i) % 8 = k + i % 8 := by omega
    have hlow : i % 8 < 8 - k := by omega
    simp [hdiv, hmod, hlow]
  · have hdiv : (k + i) / 8 = i / 8 + 1 := by omega
    have hmod : (k + i) % 8 = i % 8 - (8 - k) := by omega
    have hhigh : ¬ i % 8 < 8 - k := by omega
    have hbit : i % 8 < 8 := Nat.mod_lt _ (by decide)
    have hnone : (bytes.getD (i / 8) 0).toBitVec.getLsbD (k + i % 8) = false := BitVec.getLsbD_of_ge _ _ (by omega)
    rw [hdiv, hmod, hnone]
    simp [hhigh, hbit]

/-- The value of a byte after the shift, by division: the two parts have no bit in common. -/
theorem toNat_shifted (byte next : BitVec 8) (hk : k < 8) :
    (byte >>> k ||| next <<< (8 - k)).toNat = byte.toNat / 2 ^ k + next.toNat % 2 ^ k * 2 ^ (8 - k) := by
  have hdisjoint : byte >>> k &&& next <<< (8 - k) = 0#8 := by
    apply BitVec.eq_of_getLsbD_eq
    intro i hi
    rw [BitVec.getLsbD_and, BitVec.getLsbD_ushiftRight, BitVec.getLsbD_shiftLeft]
    by_cases hlow : i < 8 - k
    · simp [hlow]
    · rw [BitVec.getLsbD_of_ge _ _ (by omega), Bool.false_and, BitVec.getLsbD_zero]
  have hpow : 2 ^ 8 = 2 ^ k * 2 ^ (8 - k) := by
    rw [← Nat.pow_add, Nat.add_sub_cancel' (Nat.le_of_lt hk)]
  have hnext : next.toNat * 2 ^ (8 - k) % 2 ^ 8 = next.toNat % 2 ^ k * 2 ^ (8 - k) := by
    rw [hpow, Nat.mul_mod_mul_right]
  have hlt := (byte >>> k + next <<< (8 - k)).isLt
  have hsmall : byte.toNat / 2 ^ k < 2 ^ (8 - k) := by
    rw [Nat.div_lt_iff_lt_mul (Nat.two_pow_pos k), Nat.mul_comm, ← hpow]
    exact byte.isLt
  have hbig : next.toNat % 2 ^ k + 1 ≤ 2 ^ k := Nat.mod_lt _ (Nat.two_pow_pos k)
  rw [← BitVec.add_eq_or_of_and_eq_zero _ _ hdisjoint, BitVec.toNat_add, BitVec.toNat_ushiftRight, BitVec.toNat_shiftLeft,
    Nat.shiftRight_eq_div_pow, Nat.shiftLeft_eq, hnext]
  refine Nat.mod_eq_of_lt ?_
  calc byte.toNat / 2 ^ k + next.toNat % 2 ^ k * 2 ^ (8 - k)
      < (next.toNat % 2 ^ k + 1) * 2 ^ (8 - k) := by rw [Nat.succ_mul]; omega
    _ ≤ 2 ^ 8 := by
      rw [hpow]
      exact Nat.mul_le_mul_right _ hbig

/-- A byte that is shifted to the right and masked. -/
def field (k : Nat) (m byte : UInt8) : UInt8 := ⟨byte.toBitVec >>> k &&& m.toBitVec⟩

theorem toNat_field (k : Nat) (m byte : UInt8) : (field k m byte).toNat = byte.toNat / 2 ^ k &&& m.toNat := by
  rw [field, UInt8.toNat, BitVec.toNat_and, BitVec.toNat_ushiftRight, Nat.shiftRight_eq_div_pow, UInt8.toNat_toBitVec,
    UInt8.toNat_toBitVec]

/-- A shift after which a mask drops what has come from the next byte. -/
theorem load_shift_and {m : UInt8} (hk : k < 8) (hw : 8 * bytes.length ≤ w)
    (hm : ∀ i, i < 8 → 8 - k ≤ i → m.toBitVec.getLsbD i = false) :
    load w bytes >>> k &&& load w (bytes.map fun _ => m) = load w (bytes.map (field k m)) := by
  rw [load_shift hk hw, load_and (by simp)]
  refine congrArg (load w) (List.ext_getElem (by simp) fun i hi hi' => UInt8.toBitVec_inj.mp (BitVec.eq_of_getLsbD_eq fun j hj => ?_))
  have hin : i < bytes.length := by simpa using hi'
  have hbyte := getD_shifted k bytes i
  rw [List.getD_eq_getElem?_getD, List.getElem?_eq_getElem (by simpa using hin), Option.getD_some, List.getD_eq_getElem?_getD,
    List.getElem?_eq_getElem hin, Option.getD_some] at hbyte
  rw [List.getElem_zipWith, List.getElem_map, List.getElem_map, UInt8.toBitVec_and, hbyte, field, BitVec.getLsbD_and,
    BitVec.getLsbD_and, BitVec.getLsbD_or, BitVec.getLsbD_shiftLeft]
  by_cases hlow : j < 8 - k
  · simp [hlow]
  · rw [hm j hj (Nat.le_of_not_lt hlow), Bool.and_false, Bool.and_false]

end Words
