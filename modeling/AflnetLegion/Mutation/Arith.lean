import AflnetLegion.Dictionary.AutoExtras
import AflnetLegion.Lib.Words
import Mathlib.Data.BitVec

open Words

namespace aflnet

/-- The greatest number that is added or subtracted, `ARITH_MAX` of `config.h`. -/
def ARITH_MAX : Nat := 35

/-- `(u8)x` or `(u16)x`, as a `u32` again. -/
def cast_to (bits : Nat) (x : BitVec 32) : BitVec 32 := (x.setWidth bits).setWidth 32

/-- `SWAP16` of the low half of a word -/
def swap16 (x : BitVec 32) : BitVec 32 := (SWAP16 ⟨x.setWidth 16⟩).toBitVec.setWidth 32

/-- `SWAP32` of a word. -/
def swap32 (x : BitVec 32) : BitVec 32 := (SWAP32 ⟨x⟩).toBitVec

/-- The number of digits that differ, and the last two of these, which are all there is to know
if only one pair differs. -/
structure Differences where
  diffs : Nat
  ov : BitVec 32
  nv : BitVec 32
  deriving DecidableEq, Repr

/-- `(u8)(v >> (8 * i))`, or a half of a word -/
def digit (bits : Nat) (v : BitVec 32) (i : Nat) : BitVec 32 := cast_to bits (v >>> (bits * i))

/-- One round of the loop over the digits: a digit that differs is remembered. If several do,
the last of them is. -/
def compare_digit (bits : Nat) (old_val new_val : BitVec 32) (s : Differences) (i : Nat) : Differences :=
  if digit bits old_val i ≠ digit bits new_val i then
    { diffs := s.diffs + 1
      ov := digit bits old_val i
      nv := digit bits new_val i }
  else s

/-- The loop over `n` digits, which are bytes or words. What it does not set is left from the
loop before, as in the source. -/
def compare_digits (bits : Nat) (old_val new_val : BitVec 32) (n : Nat) (s : Differences) : Differences :=
  (List.range n).foldl (compare_digit bits old_val new_val) { s with diffs := 0 }

/-- Whether the values are within range of each other, as numbers of so many bits. Both
differences wrap. -/
def in_reach (bits : Nat) (ov nv : BitVec 32) : Bool :=
  (cast_to bits (ov - nv)).toNat ≤ ARITH_MAX ∨ (cast_to bits (nv - ov)).toNat ≤ ARITH_MAX

/-- `could_be_arith`: the digits are bytes first, then half words in both orders, and at last
the whole word in both orders. -/
def could_be_arith (old_val new_val : BitVec 32) (blen : Nat) : Bool :=
  if old_val = new_val then true
  else
    let bytes := compare_digits 8 old_val new_val blen { diffs := 0, ov := 0, nv := 0 }
    if bytes.diffs = 1 ∧ in_reach 8 bytes.ov bytes.nv then true
    else if blen = 1 then false
    else
      let words := compare_digits 16 old_val new_val (blen / 2) bytes
      if words.diffs = 1 ∧ (in_reach 16 words.ov words.nv ∨ in_reach 16 (swap16 words.ov) (swap16 words.nv)) then true
      else blen = 4 ∧ (in_reach 32 old_val new_val ∨ in_reach 32 (swap32 old_val) (swap32 new_val))

/-- One of the bytes or words of a buffer is increased or decreased by a small number, as a
number in one of the two orders. -/
def Arith (old new : List UInt8) : Prop :=
  ∃ order size i j, (size = 1 ∨ size = 2 ∨ size = 4) ∧ i + size ≤ old.length ∧ 1 ≤ j ∧ j ≤ ARITH_MAX ∧
    (new = put order old i size (fetch 32 order old i size + BitVec.ofNat 32 j) ∨
      new = put order old i size (fetch 32 order old i size - BitVec.ofNat 32 j))

section swap

/-- The swap of a half word as an operation on bit vectors. -/
theorem toBitVec_SWAP16 (x : UInt16) : (SWAP16 x).toBitVec = x.toBitVec <<< 8 ||| x.toBitVec >>> 8 := rfl

theorem toBitVec_SWAP32 (x : UInt32) : (SWAP32 x).toBitVec = x.toBitVec <<< 24 ||| x.toBitVec >>> 24 |||
    (x.toBitVec <<< 8 &&& 0x00FF0000#32) ||| (x.toBitVec >>> 8 &&& 0x0000FF00#32) := rfl

/-- A bit of the swapped half word comes from the other byte. -/
theorem getLsbD_swap16 (x : BitVec 32) {k : Nat} (hk : k < 16) :
    (swap16 x).getLsbD k = x.getLsbD (8 * (1 - k / 8) + k % 8) := by
  rw [swap16, toBitVec_SWAP16]
  have hwide : k < 32 := by omega
  rcases Nat.lt_or_ge k 8 with hlow | hhigh
  · have hplace : 8 * (1 - k / 8) + k % 8 = 8 + k := by omega
    have hin : 8 + k < 32 ∧ 8 + k < 16 := by omega
    rw [hplace]
    simp [hk, hwide, hlow, hin]
  · have hplace : 8 * (1 - k / 8) + k % 8 = k - 8 := by omega
    have hout : ¬ k < 8 ∧ ¬ 8 + k < 16 := by omega
    rw [hplace]
    simp [hk, hwide, hout]

theorem mask_high : ∀ i < 32, (0x00FF0000#32).getLsbD i = decide (16 ≤ i ∧ i < 24) := by decide

theorem mask_low : ∀ i < 32, (0x0000FF00#32).getLsbD i = decide (8 ≤ i ∧ i < 16) := by decide

/-- A bit of the swapped word comes from the byte on the other side. -/
theorem getLsbD_swap32 (x : BitVec 32) {k : Nat} (hk : k < 32) :
    (swap32 x).getLsbD k = x.getLsbD (8 * (3 - k / 8) + k % 8) := by
  rw [swap32, toBitVec_SWAP32]
  simp only [BitVec.getLsbD_or, BitVec.getLsbD_and, BitVec.getLsbD_shiftLeft, BitVec.getLsbD_ushiftRight, mask_high k hk,
    mask_low k hk]
  have hbyte : k < 8 ∨ 8 ≤ k ∧ k < 16 ∨ 16 ≤ k ∧ k < 24 ∨ 24 ≤ k := by omega
  rcases hbyte with h | h | h | h
  · have hplace : 8 * (3 - k / 8) + k % 8 = 24 + k := by omega
    have hother : k < 24 ∧ ¬ 16 ≤ k ∧ ¬ 8 ≤ k := by omega
    simp [hplace, h, hother]
  · have hplace : 8 * (3 - k / 8) + k % 8 = 8 + k := by omega
    have hother : k < 24 ∧ ¬ 16 ≤ k ∧ 32 ≤ 24 + k := by omega
    simp [hplace, h, hother]
  · have hplace : 8 * (3 - k / 8) + k % 8 = k - 8 := by omega
    have hother : ¬ k < 8 ∧ ¬ k < 16 ∧ 32 ≤ 24 + k := by omega
    simp [hplace, h, hother, hk]
  · have hplace : 8 * (3 - k / 8) + k % 8 = k - 24 := by omega
    have hother : ¬ k < 24 ∧ ¬ k < 16 ∧ 32 ≤ 24 + k := by omega
    simp [hplace, hother, hk]

/-- The bytes of a swapped half word are those of the half word in the other order. -/
theorem store_swap16 (x : BitVec 32) : store (swap16 x) 2 = Order.be.arrange (store x 2) :=
  store_reverse fun _ hk => getLsbD_swap16 x hk

/-- The bytes of a swapped word are those of the word in the other order. -/
theorem store_swap32 (x : BitVec 32) : store (swap32 x) 4 = Order.be.arrange (store x 4) :=
  store_reverse fun _ hk => getLsbD_swap32 x hk

end swap

section compare

variable {bits n i : Nat} {old_val new_val : BitVec 32} {s : Differences}

/-- A digit that is the only one to differ is the one that was found. -/
theorem compare_digits_spec (bits : Nat) (old_val new_val : BitVec 32) (n : Nat) (s : Differences) :
    ((compare_digits bits old_val new_val n s).diffs = 0 → ∀ k < n, digit bits old_val k = digit bits new_val k) ∧
      ((compare_digits bits old_val new_val n s).diffs = 1 → ∃ i < n, digit bits old_val i ≠ digit bits new_val i ∧
        (compare_digits bits old_val new_val n s).ov = digit bits old_val i ∧
        (compare_digits bits old_val new_val n s).nv = digit bits new_val i ∧
        ∀ k < n, k ≠ i → digit bits old_val k = digit bits new_val k) := by
  induction n with
  | zero => simp [compare_digits]
  | succ n ih =>
    obtain ⟨hnone, hone⟩ := ih
    have hstep : compare_digits bits old_val new_val (n + 1) s =
        compare_digit bits old_val new_val (compare_digits bits old_val new_val n s) n := by
      rw [compare_digits, List.range_succ, List.foldl_concat, compare_digits]
    rw [hstep, compare_digit]
    split
    · rename_i hdiffer
      refine ⟨fun h => absurd h (Nat.succ_ne_zero _), fun h => ?_⟩
      have hbefore := hnone (Nat.succ.inj h)
      refine ⟨n, Nat.lt_succ_self n, hdiffer, rfl, rfl, fun k hk hne => hbefore k (by omega)⟩
    · rename_i hsame
      rw [not_not] at hsame
      refine ⟨fun h k hk => ?_, fun h => ?_⟩
      · rcases Nat.lt_succ_iff_lt_or_eq.mp hk with hlt | rfl
        · exact hnone h k hlt
        · exact hsame
      · obtain ⟨i, hi, hdiffer, hov, hnv, hother⟩ := hone h
        refine ⟨i, Nat.lt_succ_of_lt hi, hdiffer, hov, hnv, fun k hk hne => ?_⟩
        rcases Nat.lt_succ_iff_lt_or_eq.mp hk with hlt | rfl
        · exact hother k hlt hne
        · exact hsame

/-- The cast cuts off the higher bits and fills up with zeros. -/
theorem getLsbD_cast_to (bits : Nat) (x : BitVec 32) {k : Nat} (hk : k < 32) :
    (cast_to bits x).getLsbD k = (decide (k < bits) && x.getLsbD k) := by
  simp [cast_to, hk]

/-- The bits outside of the only digit that differs. -/
theorem same_bits {m : Nat} (hbits : 0 < bits) (hm : bits * m ≤ 32)
    (hother : ∀ k < m, k ≠ i → digit bits old_val k = digit bits new_val k) (k : Nat) (hk : k < bits * m)
    (hout : ¬ (bits * i ≤ k ∧ k < bits * (i + 1))) : new_val.getLsbD k = old_val.getLsbD k := by
  have hplace : bits * (k / bits) + k % bits = k := Nat.div_add_mod k bits
  have hlow : k % bits < bits := Nat.mod_lt k hbits
  have hne : k / bits ≠ i := by
    rintro rfl
    exact hout ⟨by omega, by rw [Nat.mul_succ]; omega⟩
  have hdigit := congrArg (fun x => x.getLsbD (k % bits)) (hother (k / bits) (Nat.div_lt_of_lt_mul hk) hne)
  have hin : k % bits < 32 := Nat.lt_of_le_of_lt (Nat.mod_le k bits) (by omega)
  simp only [digit, getLsbD_cast_to bits _ hin, hlow, decide_true, Bool.true_and, BitVec.getLsbD_ushiftRight, hplace] at hdigit
  exact hdigit.symm

end compare

section reach

variable {order : Order} {size n i : Nat} {a b ov nv old_val new_val : BitVec 32} {swap : BitVec 32 → BitVec 32}

theorem store_eq_of_setWidth (h : a.setWidth (8 * size) = b.setWidth (8 * size)) : store a size = store b size := by
  refine store_eq_iff.mpr fun k hk => ?_
  simpa [hk] using congrArg (fun x => x.getLsbD k) h

theorem setWidth_cast_to (hsize : 8 * size ≤ 32) (a : BitVec 32) : (cast_to (8 * size) a).setWidth (8 * size) = a.setWidth (8 * size) := by
  refine BitVec.eq_of_getLsbD_eq fun k hk => ?_
  rw [BitVec.getLsbD_setWidth, getLsbD_cast_to _ _ (by omega)]
  simp [hk]

theorem setWidth_load_store (hsize : 8 * size ≤ 32) (a : BitVec 32) :
    (load 32 (store a size)).setWidth (8 * size) = a.setWidth (8 * size) := by
  refine BitVec.eq_of_getLsbD_eq fun k hk => ?_
  rw [BitVec.getLsbD_setWidth, getLsbD_load_store a (by omega)]
  simp [hk]

/-- The lower bits of a difference depend on the lower bits only. -/
theorem setWidth_sub (hsize : 8 * size ≤ 32) (a b : BitVec 32) :
    (a - b).setWidth (8 * size) = a.setWidth (8 * size) - b.setWidth (8 * size) := by
  rw [BitVec.sub_eq_add_neg, BitVec.setWidth_add _ _ hsize, BitVec.setWidth_neg_of_le hsize, ← BitVec.sub_eq_add_neg]

/-- A value in reach is the other one with a small number added or subtracted. -/
theorem sum_of_reach (hsize : 8 * size ≤ 32) (h : in_reach (8 * size) a b = true) : ∃ j : BitVec 32, j.toNat ≤ ARITH_MAX ∧
    (b.setWidth (8 * size) = a.setWidth (8 * size) + j.setWidth (8 * size) ∨
      b.setWidth (8 * size) = a.setWidth (8 * size) - j.setWidth (8 * size)) := by
  rcases of_decide_eq_true h with hj | hj
  · refine ⟨_, hj, Or.inr ?_⟩
    rw [setWidth_cast_to hsize, setWidth_sub hsize, sub_sub_cancel]
  · refine ⟨_, hj, Or.inl ?_⟩
    rw [setWidth_cast_to hsize, setWidth_sub hsize, add_sub_cancel]

/-- Two words of a buffer that are in reach of each other, in one of the orders of their bytes. -/
theorem arith_of_reach (hswap : ∀ x, store (swap x) size = order.arrange (store x size))
    (hsize : size = 1 ∨ size = 2 ∨ size = 4) (hi : i + size ≤ n)
    (hov : store ov size = store (old_val >>> (8 * i)) size) (hnv : store nv size = store (new_val >>> (8 * i)) size)
    (hdiffer : store ov size ≠ store nv size) (hreach : in_reach (8 * size) (swap ov) (swap nv) = true)
    (hsame : ∀ k < 8 * n, ¬ (8 * i ≤ k ∧ k < 8 * (i + size)) → new_val.getLsbD k = old_val.getLsbD k) :
    Arith (store old_val n) (store new_val n) := by
  have hwidth : 8 * size ≤ 32 := by omega
  have harrange : ∀ x, order.arrange (store (swap x) size) = store x size := fun x => by rw [hswap, Order.arrange_arrange]
  obtain ⟨j, hj, hsum⟩ := sum_of_reach hwidth hreach
  have hvalue : BitVec.ofNat 32 j.toNat = j := BitVec.eq_of_toNat_eq (by simp)
  have hpos : 1 ≤ j.toNat := by
    rw [Nat.one_le_iff_ne_zero]
    intro hzero
    obtain rfl : j = 0 := BitVec.eq_of_toNat_eq hzero
    have hequal : (swap ov).setWidth (8 * size) = (swap nv).setWidth (8 * size) := by
      rcases hsum with hsum | hsum <;> simpa using hsum.symm
    refine hdiffer ?_
    rw [← harrange ov, store_eq_of_setWidth hequal, harrange]
  have hfetch : fetch 32 order (store old_val n) i size = load 32 (store (swap ov) size) := by
    rw [fetch_store old_val order hi, ← hov, hswap]
  have hput : ∀ y : BitVec 32, y.setWidth (8 * size) = (swap nv).setWidth (8 * size) →
      store new_val n = put order (store old_val n) i size y := by
    intro y hy
    refine (put_store hi hsame ?_).symm
    rw [← hnv, ← harrange nv, store_eq_of_setWidth hy]
  refine ⟨order, size, i, j.toNat, hsize, by simpa using hi, hpos, hj, ?_⟩
  rw [hfetch, hvalue]
  rcases hsum with hsum | hsum
  · left
    apply hput
    rw [hsum, BitVec.setWidth_add _ _ hwidth, setWidth_load_store hwidth]
  · right
    apply hput
    rw [hsum, setWidth_sub hwidth, setWidth_load_store hwidth]

/-- A digit of a word consists of the bytes in its place. -/
theorem store_digit (hsize : 8 * size ≤ 32) (v : BitVec 32) (i : Nat) :
    store (digit (8 * size) v i) size = store (v >>> (8 * (size * i))) size := by
  rw [digit, Nat.mul_assoc]
  exact store_eq_of_setWidth (setWidth_cast_to hsize _)

theorem digit_eq_of_store {v x : BitVec 32} (h : store (digit (8 * size) v i) size = store (digit (8 * size) x i) size) :
    digit (8 * size) v i = digit (8 * size) x i := by
  rw [store_eq_iff] at h
  refine BitVec.eq_of_getLsbD_eq fun k hk => ?_
  rcases Nat.lt_or_ge k (8 * size) with hlow | hhigh
  · exact h k hlow
  · rw [digit, getLsbD_cast_to _ _ hk, digit, getLsbD_cast_to _ _ hk, decide_eq_false (Nat.not_lt.mpr hhigh), Bool.false_and,
      Bool.false_and]

/-- The digit that was found, in one of the orders of its bytes. -/
theorem arith_of_digit (order : Order) (swap : BitVec 32 → BitVec 32) (size : Nat) {m : Nat} {s : Differences}
    (hswap : ∀ x, store (swap x) size = order.arrange (store x size))
    (hsize : size = 1 ∨ size = 2 ∨ size = 4) (hn : size * m = n) (hwidth : 8 * n ≤ 32)
    (hone : (compare_digits (8 * size) old_val new_val m s).diffs = 1)
    (hreach : in_reach (8 * size) (swap (compare_digits (8 * size) old_val new_val m s).ov)
      (swap (compare_digits (8 * size) old_val new_val m s).nv) = true) :
    Arith (store old_val n) (store new_val n) := by
  obtain ⟨i, hi, hdiffer, hov, hnv, hother⟩ := (compare_digits_spec (8 * size) old_val new_val m s).2 hone
  rw [hov, hnv] at hreach
  have hdigit : 8 * size ≤ 32 := by omega
  have hin : size * i + size ≤ n := by
    rw [← hn, ← Nat.mul_succ]
    exact Nat.mul_le_mul_left size hi
  have hbits : 8 * n = 8 * size * m := by rw [← hn, Nat.mul_assoc]
  refine arith_of_reach hswap hsize hin (store_digit hdigit old_val i) (store_digit hdigit new_val i)
    (fun h => hdiffer (digit_eq_of_store h)) hreach fun k hk hout => ?_
  refine same_bits (by omega) (hbits ▸ hwidth) hother k (hbits ▸ hk) ?_
  rwa [Nat.mul_assoc, Nat.mul_assoc, Nat.mul_succ]

/-- All the bytes are one word. -/
theorem arith_of_word (order : Order) (swap : BitVec 32 → BitVec 32) (hswap : ∀ x, store (swap x) 4 = order.arrange (store x 4))
    (hne : old_val ≠ new_val) (hreach : in_reach 32 (swap old_val) (swap new_val) = true) : Arith (store old_val 4) (store new_val 4) := by
  refine arith_of_reach (i := 0) hswap (Or.inr (Or.inr rfl)) (Nat.le_refl 4) rfl rfl (fun h => hne ?_) hreach fun k hk hout => ?_
  · exact BitVec.eq_of_getLsbD_eq fun k hk => store_eq_iff.mp h k hk
  · exact absurd ⟨Nat.zero_le k, hk⟩ hout

end reach

/-- What is taken for the result of an addition or subtraction is one, in the memory that
the values are stored in. -/
theorem could_be_arith_sound {old_val new_val : BitVec 32} {blen : Nat} (hblen : blen = 1 ∨ blen = 2 ∨ blen = 4)
    (h : could_be_arith old_val new_val blen = true) :
    old_val = new_val ∨ Arith (store old_val blen) (store new_val blen) := by
  unfold could_be_arith at h
  split at h
  · rename_i heq
    exact Or.inl heq
  · rename_i hne
    right
    dsimp only at h
    split at h
    · rename_i hbyte
      exact arith_of_digit .le id 1 (fun _ => rfl) (Or.inl rfl) (Nat.one_mul blen)
        (by omega) hbyte.1 hbyte.2
    · split at h
      · cases h
      · rename_i hlong
        have hhalves : 2 * (blen / 2) = blen := by omega
        split at h
        · rename_i hword
          rcases hword.2 with hreach | hreach
          · exact arith_of_digit .le id 2 (fun _ => rfl) (Or.inr (Or.inl rfl)) hhalves
              (by omega) hword.1 hreach
          · exact arith_of_digit .be swap16 2 store_swap16 (Or.inr (Or.inl rfl)) hhalves (by omega) hword.1 hreach
        · obtain ⟨rfl, hreach⟩ := of_decide_eq_true h
          rcases hreach with hreach | hreach
          · exact arith_of_word .le id (fun _ => rfl) hne hreach
          · exact arith_of_word .be swap32 store_swap32 hne hreach

end aflnet
