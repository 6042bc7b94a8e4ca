import Mathlib.Algebra.Group.Nat.Defs
import Mathlib.Data.Nat.Size
import Mathlib.Tactic.ByContra

/-! How many buckets a `khash.h` table has, and how many of them may be in use. -/

namespace aflnet

/-- `kroundup32`: the bits below the highest one of `x - 1` are set, and one is added. -/
def kroundup32 (x : UInt32) : UInt32 :=
  let x := x - 1
  let x := x ||| x >>> 1
  let x := x ||| x >>> 2
  let x := x ||| x >>> 4
  let x := x ||| x >>> 8
  let x := x ||| x >>> 16
  x + 1

/-- The number of buckets that `kh_resize` makes room for. -/
def new_buckets (new_n_buckets : UInt32) : Nat :=
  if (kroundup32 new_n_buckets).toNat < 4 then 4 else (kroundup32 new_n_buckets).toNat

/-- `(khint_t)(n_buckets * __ac_HASH_UPPER + 0.5)`. The double 0.77 is 1733885856537641 / 2^51, and for
powers of two below 2^52 neither the product nor the sum is rounded. -/
def hash_upper (n_buckets : Nat) : Nat := (n_buckets * 1733885856537641 + 2 ^ 50) / 2 ^ 51

variable {x : UInt32} {s y d k n m : Nat}

/-- Every bit of `s` is one of the `d` bits of `y` from there on. -/
def Smeared (y d s : Nat) : Prop := ∀ j, s.testBit j = true ↔ ∃ e < d, y.testBit (j + e) = true

/-- One of the shifts doubles the number of bits that are covered. -/
theorem Smeared.double (h : Smeared y d s) : Smeared y (d + d) (s ||| s >>> d) := by
  intro j
  rw [Nat.testBit_or, Nat.testBit_shiftRight, Bool.or_eq_true, h, h]
  constructor
  · rintro (⟨e, he, hbit⟩ | ⟨e, he, hbit⟩)
    · exact ⟨e, by omega, hbit⟩
    · exact ⟨d + e, by omega, by rw [← hbit]; congr 1; omega⟩
  · rintro ⟨e, he, hbit⟩
    by_cases hed : e < d
    · exact Or.inl ⟨e, hed, hbit⟩
    · exact Or.inr ⟨e - d, by omega, by rw [← hbit]; congr 1; omega⟩

theorem smeared_one (y : Nat) : Smeared y 1 y := by
  intro j
  constructor
  · intro hbit
    exact ⟨0, by decide, hbit⟩
  · rintro ⟨e, he, hbit⟩
    obtain rfl : e = 0 := by omega
    exact hbit

/-- Below the highest bit every bit is set. -/
theorem Smeared.eq_pow (h : Smeared y 32 s) (hy : y < 2 ^ 32) : s = 2 ^ y.size - 1 := by
  refine Nat.eq_of_testBit_eq fun j => ?_
  rw [Nat.testBit_two_pow_sub_one, Bool.eq_iff_iff, h, decide_eq_true_iff, Nat.lt_size]
  constructor
  · rintro ⟨e, _, hbit⟩
    exact Nat.le_trans (Nat.pow_le_pow_right (by decide) (Nat.le_add_right j e)) (Nat.ge_two_pow_of_testBit hbit)
  · intro hle
    obtain ⟨i, hi, hbit⟩ := Nat.exists_ge_and_testBit_of_ge_two_pow hle
    have hhigh : i < 32 := by
      by_contra hge
      rw [Nat.testBit_lt_two_pow (Nat.lt_of_lt_of_le hy (Nat.pow_le_pow_right (by decide) (by omega)))] at hbit
      cases hbit
    exact ⟨i - j, by omega, by rw [← hbit]; congr 1; omega⟩

/-- The next power of two, up to wrapping at 2^32. At 0 the subtraction wraps instead. -/
theorem toNat_kroundup32 (hx : x ≠ 0) : (kroundup32 x).toNat = 2 ^ (x.toNat - 1).size % 2 ^ 32 := by
  have hlt : x.toNat - 1 < 2 ^ 32 := Nat.lt_of_le_of_lt (Nat.sub_le _ _) x.toNat_lt
  have hpos : 1 ≤ x := by
    have : x.toNat ≠ 0 := fun h => hx (UInt32.toNat_inj.mp h)
    rw [UInt32.le_iff_toNat_le]
    change 1 ≤ x.toNat
    omega
  have hsub : (x - 1).toNat = x.toNat - 1 := UInt32.toNat_sub_of_le _ _ hpos
  have hsmear : Smeared (x.toNat - 1) 32 (kroundup32 x - 1).toNat := by
    have hend : ∀ a : UInt32, a + 1 - 1 = a := fun a => by rw [UInt32.add_sub_cancel]
    rw [kroundup32, hend]
    simp only [UInt32.toNat_or, UInt32.toNat_shiftRight, hsub]
    exact ((((smeared_one _).double).double).double).double.double
  have hvalue := hsmear.eq_pow hlt
  have hback : kroundup32 x = (kroundup32 x - 1) + 1 := (UInt32.sub_add_cancel _ _).symm
  rw [hback, UInt32.toNat_add, hvalue]
  change (2 ^ (x.toNat - 1).size - 1 + 1) % 2 ^ 32 = _
  rw [Nat.sub_add_cancel (Nat.two_pow_pos _)]

theorem four_le_pow (hk : 2 ≤ k) : 4 ≤ 2 ^ k := Nat.pow_le_pow_right (n := 2) (by decide) hk

theorem new_buckets_eq (hx : x ≠ 0) (hle : x.toNat ≤ 2 ^ 31) : new_buckets x = max 4 (2 ^ (x.toNat - 1).size) := by
  have hsize : (x.toNat - 1).size ≤ 31 := Nat.size_le.mpr (by omega)
  have hpow : 2 ^ (x.toNat - 1).size ≤ 2 ^ 31 := Nat.pow_le_pow_right (by decide) hsize
  have hround : (kroundup32 x).toNat = 2 ^ (x.toNat - 1).size := by
    rw [toNat_kroundup32 hx, Nat.mod_eq_of_lt (by omega)]
  rw [new_buckets, hround]
  split <;> omega

/-- Whatever is asked for, the number of buckets is a power of two. -/
theorem exists_new_buckets_eq (x : UInt32) : ∃ k, 2 ≤ k ∧ k ≤ 31 ∧ new_buckets x = 2 ^ k := by
  by_cases hx : x = 0
  · subst hx
    exact ⟨2, by decide, by decide, by decide⟩
  by_cases hle : x.toNat ≤ 2 ^ 31
  · have hsize : (x.toNat - 1).size ≤ 31 := Nat.size_le.mpr (by omega)
    refine ⟨max 2 (x.toNat - 1).size, by omega, by omega, ?_⟩
    rw [new_buckets_eq hx hle]
    rcases Nat.le_total 2 (x.toNat - 1).size with hge | hge
    · rw [Nat.max_eq_right hge]
      exact Nat.max_eq_right (four_le_pow hge)
    · rw [Nat.max_eq_left hge]
      exact Nat.max_eq_left (Nat.pow_le_pow_right (by decide) hge)
  · have hsize : (x.toNat - 1).size = 32 := by
      refine Nat.le_antisymm (Nat.size_le.mpr (Nat.lt_of_le_of_lt (Nat.sub_le _ _) x.toNat_lt)) ?_
      exact Nat.lt_size.mpr (by omega)
    refine ⟨2, by decide, by decide, ?_⟩
    rw [new_buckets, toNat_kroundup32 hx, hsize]
    rfl

/-- One more bucket is asked for: there are twice as many. -/
theorem new_buckets_succ (hk : 2 ≤ k) (hk' : k ≤ 30) : new_buckets (UInt32.ofNat (2 ^ k + 1)) = 2 ^ (k + 1) := by
  have hpow : 2 ^ k ≤ 2 ^ 30 := Nat.pow_le_pow_right (by decide) hk'
  have hvalue : (UInt32.ofNat (2 ^ k + 1)).toNat = 2 ^ k + 1 :=
    UInt32.toNat_ofNat_of_lt' (Nat.lt_of_le_of_lt (Nat.succ_le_succ hpow) (by decide))
  have hne : UInt32.ofNat (2 ^ k + 1) ≠ 0 := fun h => by
    have hzero := congrArg UInt32.toNat h
    rw [hvalue] at hzero
    cases hzero
  rw [new_buckets_eq hne (by omega), hvalue, Nat.add_sub_cancel, Nat.size_pow]
  exact Nat.max_eq_right (four_le_pow (by omega))

/-- One bucket fewer is asked for: there are as many as before. -/
theorem new_buckets_pred (hk : 2 ≤ k) (hk' : k ≤ 31) : new_buckets (UInt32.ofNat (2 ^ k - 1)) = 2 ^ k := by
  have hpow : 2 ^ k ≤ 2 ^ 31 := Nat.pow_le_pow_right (by decide) hk'
  have hlow := four_le_pow hk
  have hvalue : (UInt32.ofNat (2 ^ k - 1)).toNat = 2 ^ k - 1 :=
    UInt32.toNat_ofNat_of_lt' (Nat.lt_of_le_of_lt (Nat.le_trans (Nat.sub_le _ _) hpow) (by decide))
  have hne : UInt32.ofNat (2 ^ k - 1) ≠ 0 := fun h => by
    have hzero := congrArg UInt32.toNat h
    rw [hvalue] at hzero
    change 2 ^ k - 1 = 0 at hzero
    omega
  have hsize : (2 ^ k - 1 - 1).size = k := by
    have hhalf : 2 ^ k = 2 ^ (k - 1) + 2 ^ (k - 1) := by
      obtain ⟨m, rfl⟩ : ∃ m, k = m + 1 := ⟨k - 1, by omega⟩
      rw [Nat.add_sub_cancel, Nat.pow_succ]
      omega
    have hquarter : 2 ^ 1 ≤ 2 ^ (k - 1) := Nat.pow_le_pow_right (by decide) (by omega)
    have hlt : k - 1 < (2 ^ k - 1 - 1).size := Nat.lt_size.mpr (by omega)
    have hle : (2 ^ k - 1 - 1).size ≤ k := Nat.size_le.mpr (by omega)
    omega
  rw [new_buckets_eq hne (by omega), hvalue, hsize]
  exact Nat.max_eq_right hlow

/-- The upper bound leaves a bucket empty, which is what ends a search for a key that is not
there. -/
theorem hash_upper_lt (hn : 4 ≤ n) : hash_upper n < n := by
  rw [hash_upper, Nat.div_lt_iff_lt_mul (by decide)]
  omega

/-- More than half of the buckets may be in use, so doubling the number of buckets makes room
for what is there. -/
theorem lt_two_mul_hash_upper (hn : 4 ≤ n) : n < 2 * hash_upper n := by
  have hdiv := Nat.div_add_mod (n * 1733885856537641 + 2 ^ 50) (2 ^ 51)
  have hmod := Nat.mod_lt (n * 1733885856537641 + 2 ^ 50) (Nat.two_pow_pos 51)
  rw [hash_upper]
  omega

theorem hash_upper_zero : hash_upper 0 = 0 := rfl

end aflnet
