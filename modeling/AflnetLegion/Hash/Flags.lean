import AflnetLegion.Lib.OpenTable

/-! The flags of a `khash.h` table, two bits for each bucket and 16 buckets in each word. -/

namespace aflnet

/-- The word of a bucket, shifted so that the flags of the bucket come first. Sixteen buckets
share a word of 32 bits. -/
def ac_flag (flag : List (BitVec 32)) (i : Nat) : BitVec 32 := flag.getD (i >>> 4) 0 >>> ((i &&& 0xf) <<< 1)

/-- `__ac_isempty`: the higher of the two bits, which is set as long as nothing was ever put
into the bucket. A search ends at such a bucket. -/
def ac_isempty (flag : List (BitVec 32)) (i : Nat) : Bool := ac_flag flag i &&& 2 ≠ 0

/-- `__ac_isdel`: the lower bit, which is set once the entry of the bucket has been deleted. A
search goes on behind such a bucket. -/
def ac_isdel (flag : List (BitVec 32)) (i : Nat) : Bool := ac_flag flag i &&& 1 ≠ 0

/-- `__ac_iseither`: the bucket has no entry, for either reason. Its key and value are then
whatever was left there. -/
def ac_iseither (flag : List (BitVec 32)) (i : Nat) : Bool := ac_flag flag i &&& 3 ≠ 0

/-- `__ac_set_isempty_false`: the bucket is in use. A bit that says that it was deleted stays.
-/
def ac_set_isempty_false (flag : List (BitVec 32)) (i : Nat) : List (BitVec 32) :=
  flag.modify (i >>> 4) (· &&& ~~~((2 : BitVec 32) <<< ((i &&& 0xf) <<< 1)))

/-- `__ac_set_isboth_false`: the bucket has an entry, whatever it was before. -/
def ac_set_isboth_false (flag : List (BitVec 32)) (i : Nat) : List (BitVec 32) :=
  flag.modify (i >>> 4) (· &&& ~~~((3 : BitVec 32) <<< ((i &&& 0xf) <<< 1)))

/-- `__ac_set_isdel_true`: the entry is deleted, or has been moved while the table is rehashed.
-/
def ac_set_isdel_true (flag : List (BitVec 32)) (i : Nat) : List (BitVec 32) :=
  flag.modify (i >>> 4) (· ||| (1 : BitVec 32) <<< ((i &&& 0xf) <<< 1))

/-- `__ac_fsize`: the number of words that hold two bits for each of `m` buckets, sixteen
buckets to a word. -/
def ac_fsize (m : Nat) : Nat := if m < 16 then 1 else m >>> 4

/-- The flags after `memset(flags, 0xaa, …)`. -/
def empty_flags (n_buckets : Nat) : List (BitVec 32) := List.replicate (ac_fsize n_buckets) 0xaaaaaaaa

variable {flag : List (BitVec 32)} {i j n : Nat}

/-- One of the two bits of a bucket. -/
def flag_bit (flag : List (BitVec 32)) (i which : Nat) : Bool := (flag.getD (i / 16) 0).getLsbD (2 * (i % 16) + which)

/-- The shift of a bucket within its word is twice its number among the sixteen. -/
theorem shift_eq (i : Nat) : (i &&& 0xf) <<< 1 = 2 * (i % 16) := by
  have hmod : i &&& 15 = i % 16 := Nat.and_two_pow_sub_one_eq_mod i 4
  rw [hmod, Nat.shiftLeft_eq]
  omega

theorem word_eq (i : Nat) : i >>> 4 = i / 16 := Nat.shiftRight_eq_div_pow i 4

/-- The shifted word begins with the two bits of the bucket, so the three tests read nothing
else of it. -/
theorem getLsbD_ac_flag (flag : List (BitVec 32)) (i which : Nat) :
    (ac_flag flag i).getLsbD which = flag_bit flag i which := by
  rw [ac_flag, BitVec.getLsbD_ushiftRight, shift_eq, word_eq, flag_bit]

theorem ac_isempty_eq (flag : List (BitVec 32)) (i : Nat) : ac_isempty flag i = flag_bit flag i 1 := by
  have htwo : (2 : BitVec 32) = BitVec.twoPow 32 1 := rfl
  rw [ac_isempty, htwo, BitVec.and_twoPow, getLsbD_ac_flag]
  cases flag_bit flag i 1 <;> decide

theorem ac_isdel_eq (flag : List (BitVec 32)) (i : Nat) : ac_isdel flag i = flag_bit flag i 0 := by
  have hone : (1 : BitVec 32) = BitVec.twoPow 32 0 := rfl
  rw [ac_isdel, hone, BitVec.and_twoPow, getLsbD_ac_flag]
  cases flag_bit flag i 0 <;> decide

theorem ac_iseither_eq (flag : List (BitVec 32)) (i : Nat) : ac_iseither flag i = (ac_isempty flag i || ac_isdel flag i) := by
  have hthree : (3 : BitVec 32) = 2 ||| 1 := rfl
  have hsplit : ac_flag flag i &&& 3 = (ac_flag flag i &&& 2) ||| (ac_flag flag i &&& 1) := by
    rw [hthree, BitVec.and_or_distrib_left]
  have hor : ∀ x y : BitVec 32, (decide (x ||| y ≠ 0) : Bool) = (decide (x ≠ 0) || decide (y ≠ 0)) := by
    intro x y
    by_cases hx : x = 0
    · subst hx
      simp
    · have hne : x ||| y ≠ 0 := fun h => hx (BitVec.or_eq_zero_iff.mp h).1
      simp only [ne_eq, hx, hne, not_false_eq_true, decide_true, Bool.true_or]
  rw [ac_iseither, ac_isempty, ac_isdel, hsplit, hor]

/-- A bit of a word that is masked to the two flags of a bucket. -/
theorem getLsbD_mask (mask : BitVec 32) (hmask : ∀ k, 2 ≤ k → mask.getLsbD k = false) {which : Nat} (hwhich : which < 2) (i j : Nat) :
    (mask <<< ((i &&& 0xf) <<< 1)).getLsbD (2 * (j % 16) + which) = (decide (j % 16 = i % 16) && mask.getLsbD which) := by
  rw [shift_eq, BitVec.getLsbD_shiftLeft]
  have hbound : 2 * (j % 16) + which < 32 := by omega
  rcases Nat.lt_trichotomy (j % 16) (i % 16) with hlt | heq | hgt
  · have hlow : 2 * (j % 16) + which < 2 * (i % 16) := by omega
    simp [hlow, Nat.ne_of_lt hlt]
  · simp [heq, heq ▸ hbound]
  · have hlow : ¬ 2 * (j % 16) + which < 2 * (i % 16) := by omega
    simp [hlow, Nat.ne_of_gt hgt, hmask _ (show 2 ≤ 2 * (j % 16) + which - 2 * (i % 16) by omega)]

/-- A word is changed: the bits of the buckets in the other words stay. -/
theorem flag_bit_modify (f : BitVec 32 → BitVec 32) (hi : i / 16 < flag.length) (j which : Nat) :
    flag_bit (flag.modify (i >>> 4) f) j which =
      if j / 16 = i / 16 then (f (flag.getD (i / 16) 0)).getLsbD (2 * (j % 16) + which) else flag_bit flag j which := by
  rw [flag_bit, word_eq, List.getD_eq_getElem?_getD, List.getElem?_modify]
  by_cases hword : j / 16 = i / 16
  · simp [hword, List.getD_eq_getElem?_getD, List.getElem?_eq_getElem hi]
  · have hother : ¬ i / 16 = j / 16 := fun h => hword h.symm
    simp [hword, hother, flag_bit, List.getD_eq_getElem?_getD]

theorem same_bucket (hword : j / 16 = i / 16) : j % 16 = i % 16 ↔ j = i := by
  constructor
  · intro hrest
    omega
  · rintro rfl
    rfl

/-- Clearing the bits of `mask` for one bucket. -/
theorem flag_bit_clear (mask : BitVec 32) (hmask : ∀ k, 2 ≤ k → mask.getLsbD k = false) (hi : i / 16 < flag.length) (j : Nat)
    {which : Nat} (hwhich : which < 2) :
    flag_bit (flag.modify (i >>> 4) (· &&& ~~~(mask <<< ((i &&& 0xf) <<< 1)))) j which =
      (flag_bit flag j which && !(decide (j = i) && mask.getLsbD which)) := by
  have hbound : 2 * (j % 16) + which < 32 := by omega
  rw [flag_bit_modify _ hi]
  split
  · rename_i hword
    rw [BitVec.getLsbD_and, BitVec.getLsbD_not, getLsbD_mask mask hmask hwhich, decide_eq_true hbound, Bool.true_and, ← hword,
      decide_eq_decide.mpr (same_bucket hword), flag_bit]
  · rename_i hword
    have hne : j ≠ i := fun h => hword (by rw [h])
    simp [hne]

/-- Setting the bits of `mask` for one bucket. -/
theorem flag_bit_set (mask : BitVec 32) (hmask : ∀ k, 2 ≤ k → mask.getLsbD k = false) (hi : i / 16 < flag.length) (j : Nat)
    {which : Nat} (hwhich : which < 2) :
    flag_bit (flag.modify (i >>> 4) (· ||| mask <<< ((i &&& 0xf) <<< 1))) j which =
      (flag_bit flag j which || (decide (j = i) && mask.getLsbD which)) := by
  rw [flag_bit_modify _ hi]
  split
  · rename_i hword
    rw [BitVec.getLsbD_or, getLsbD_mask mask hmask hwhich, ← hword, decide_eq_decide.mpr (same_bucket hword), flag_bit]
  · rename_i hword
    have hne : j ≠ i := fun h => hword (by rw [h])
    simp [hne]

/-- A mask for two flags has no higher bits, so it does not reach the next bucket. -/
theorem high_bits {mask : BitVec 32} (h : mask.toNat < 4) (k : Nat) (hk : 2 ≤ k) : mask.getLsbD k = false := by
  rw [BitVec.getLsbD]
  exact Nat.testBit_lt_two_pow (Nat.lt_of_lt_of_le h (Nat.pow_le_pow_right (n := 2) (by decide) hk))

/-- Only the bucket that is written is no longer empty. The index has to lie within the flags,
as for all of these writes. -/
theorem ac_isempty_set_isempty_false (hi : i / 16 < flag.length) (j : Nat) :
    ac_isempty (ac_set_isempty_false flag i) j = (ac_isempty flag j && !decide (j = i)) := by
  rw [ac_isempty_eq, ac_isempty_eq, ac_set_isempty_false, flag_bit_clear 2 (high_bits (by decide)) hi j (by decide)]
  simp

/-- Taking a bucket into use leaves the deleted ones as they are, the bucket itself included. -/
theorem ac_isdel_set_isempty_false (hi : i / 16 < flag.length) (j : Nat) :
    ac_isdel (ac_set_isempty_false flag i) j = ac_isdel flag j := by
  rw [ac_isdel_eq, ac_isdel_eq, ac_set_isempty_false, flag_bit_clear 2 (high_bits (by decide)) hi j (by decide)]
  simp

theorem ac_isempty_set_isboth_false (hi : i / 16 < flag.length) (j : Nat) :
    ac_isempty (ac_set_isboth_false flag i) j = (ac_isempty flag j && !decide (j = i)) := by
  rw [ac_isempty_eq, ac_isempty_eq, ac_set_isboth_false, flag_bit_clear 3 (high_bits (by decide)) hi j (by decide)]
  simp

/-- A bucket that gets an entry is no longer deleted, and no other one changes. -/
theorem ac_isdel_set_isboth_false (hi : i / 16 < flag.length) (j : Nat) :
    ac_isdel (ac_set_isboth_false flag i) j = (ac_isdel flag j && !decide (j = i)) := by
  rw [ac_isdel_eq, ac_isdel_eq, ac_set_isboth_false, flag_bit_clear 3 (high_bits (by decide)) hi j (by decide)]
  simp

/-- Deleting an entry does not make a bucket empty: a search has to go on there. -/
theorem ac_isempty_set_isdel_true (hi : i / 16 < flag.length) (j : Nat) :
    ac_isempty (ac_set_isdel_true flag i) j = ac_isempty flag j := by
  rw [ac_isempty_eq, ac_isempty_eq, ac_set_isdel_true, flag_bit_set 1 (high_bits (by decide)) hi j (by decide)]
  simp

theorem ac_isdel_set_isdel_true (hi : i / 16 < flag.length) (j : Nat) :
    ac_isdel (ac_set_isdel_true flag i) j = (ac_isdel flag j || decide (j = i)) := by
  rw [ac_isdel_eq, ac_isdel_eq, ac_set_isdel_true, flag_bit_set 1 (high_bits (by decide)) hi j (by decide)]
  simp

@[simp] theorem length_ac_set_isempty_false : (ac_set_isempty_false flag i).length = flag.length := List.length_modify ..

@[simp] theorem length_ac_set_isboth_false : (ac_set_isboth_false flag i).length = flag.length := List.length_modify ..

@[simp] theorem length_ac_set_isdel_true : (ac_set_isdel_true flag i).length = flag.length := List.length_modify ..

/-- The flags have a word for every bucket. The number of buckets is a power of two, which is
what the hypothesis comes from. -/
theorem div_lt_ac_fsize (hi : i < n) (hn : n % 16 = 0 ∨ n < 16) : i / 16 < ac_fsize n := by
  rw [ac_fsize]
  split
  · omega
  · rw [word_eq]
    omega

/-- In fresh flags, which are the bytes `0xaa`, the higher bit of every bucket is set and the
lower one is not. -/
theorem flag_bit_empty_flags (hi : i / 16 < ac_fsize n) {which : Nat} (hwhich : which < 2) :
    flag_bit (empty_flags n) i which = decide (which = 1) := by
  rw [flag_bit, empty_flags, List.getD_eq_getElem?_getD, List.getElem?_replicate, if_pos hi, Option.getD_some]
  have hpattern : ∀ r < 16, ∀ which < 2, (0xaaaaaaaa : BitVec 32).getLsbD (2 * r + which) = decide (which = 1) := by decide
  exact hpattern _ (Nat.mod_lt _ (by decide)) _ hwhich

theorem ac_isempty_empty_flags (hi : i / 16 < ac_fsize n) : ac_isempty (empty_flags n) i = true := by
  rw [ac_isempty_eq, flag_bit_empty_flags hi (by decide), decide_eq_true rfl]

theorem ac_isdel_empty_flags (hi : i / 16 < ac_fsize n) : ac_isdel (empty_flags n) i = false := by
  rw [ac_isdel_eq, flag_bit_empty_flags hi (by decide)]
  rfl

end aflnet
