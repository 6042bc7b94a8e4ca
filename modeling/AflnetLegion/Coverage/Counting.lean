import AflnetLegion.Lib.Count
import AflnetLegion.Lib.Lanes
import Mathlib.Data.Nat.Count
import Mathlib.Tactic.IntervalCases

open Words (load field)

namespace aflnet

/-- The loop over the words of a map, of which `i` are left. The three functions that count have
the same loop over words of 32 bits, whatever `WORD_SIZE_64` says, and count in a `u32`. -/
def count_words (of_word : BitVec 32 → UInt32) : Nat → List UInt8 → UInt32 → UInt32
  | 0, _, ret => ret
  | i + 1, ptr, ret => count_words of_word i (ptr.drop 4) (ret + of_word (load 32 (ptr.take 4)))

/-- The bits of one word: first in pairs, then in nibbles, then in bytes, which a multiplication
adds up in the highest byte. -/
def bits_of_word (v : BitVec 32) : UInt32 :=
  if v = 0xffffffff then 32
  else
    let v := v - (v >>> 1 &&& 0x55555555#32)
    let v := (v &&& 0x33333333#32) + (v >>> 2 &&& 0x33333333#32)
    ⟨((v + v >>> 4 &&& 0xF0F0F0F#32) * 0x01010101#32) >>> 24⟩

/-- `count_bits`, which counts the bits that are set in a map. A full word is counted without
the arithmetic of `bits_of_word`, as it is the most frequent one in a virgin map. -/
def count_bits (mem : List UInt8) : UInt32 := count_words bits_of_word (mem.length / 4) mem 0

/-- `FF(b)`: the mask of byte `b` of a word, where byte 0 is the lowest one. -/
def FF (b : Nat) : BitVec 32 := 0xff <<< (b <<< 3)

/-- How many of the four bytes of a word meet a condition on the word. -/
def count_four (p : Nat → Bool) : UInt32 :=
  (if p 0 then 1 else 0) + (if p 1 then 1 else 0) + (if p 2 then 1 else 0) + (if p 3 then 1 else 0)

/-- How many bytes of a word are not 0, by four tests. The order of the bytes in memory does not
matter for their number. -/
def bytes_of_word (v : BitVec 32) : UInt32 := if v = 0 then 0 else count_four fun b => v &&& FF b ≠ 0

/-- `count_bytes`, which counts the bytes that are not 0. -/
def count_bytes (mem : List UInt8) : UInt32 := count_words bytes_of_word (mem.length / 4) mem 0

/-- How many bytes of a word are not 255, by four tests. -/
def non_255_bytes_of_word (v : BitVec 32) : UInt32 :=
  if v = 0xffffffff then 0 else count_four fun b => v &&& FF b ≠ FF b

/-- `count_non_255_bytes`, which counts the bytes that are not 255. -/
def count_non_255_bytes (mem : List UInt8) : UInt32 := count_words non_255_bytes_of_word (mem.length / 4) mem 0

/-- The number of set bits of a byte. -/
def set_bits (byte : UInt8) : Nat := Nat.count (fun k => byte.toBitVec.getLsbD k = true) 8

/-- A property of all bytes can be checked on the 256 values. -/
theorem forall_byte {P : UInt8 → Prop} (h : ∀ i : Fin 256, P (UInt8.ofFin i)) (byte : UInt8) : P byte := h byte.toFin

section swar

variable {a b c d : UInt8}

/-- The three steps, in a byte. -/
def pairs (byte : UInt8) : UInt8 := byte - field 1 0x55 byte

/-- The second step, in a byte: the counts of its pairs are added. -/
def nibbles (byte : UInt8) : UInt8 := (byte &&& 0x33) + field 2 0x33 byte

/-- The third step, in a byte: the counts of its nibbles are added. -/
def whole (byte : UInt8) : UInt8 := (byte &&& 0xF) + field 4 0xF byte

theorem pair_sub_le (byte : UInt8) : field 1 0x55 byte ≤ byte := by
  rw [UInt8.le_iff_toNat_le, Words.toNat_field]
  exact Nat.and_le_left.trans (Nat.div_le_self _ _)

/-- The first step on a word is the step on each of its bytes. -/
theorem load_pairs : load 32 [a, b, c, d] - (load 32 [a, b, c, d] >>> 1 &&& 0x55555555#32) =
    load 32 [pairs a, pairs b, pairs c, pairs d] := by
  have hmask : 0x55555555#32 = load 32 ([a, b, c, d].map fun _ => 0x55) := by
    simp only [List.map_cons, List.map_nil]
    decide
  have hsize : 8 * [a, b, c, d].length ≤ 32 := Nat.le_refl _
  rw [hmask, Words.load_shift_and (by decide) hsize (by decide)]
  refine Words.load_sub (by simp) hsize ?_
  intro p hp
  simp only [List.zip_cons_cons, List.map_cons, List.map_nil, List.zip_nil_left, List.mem_cons, List.not_mem_nil, or_false] at hp
  rcases hp with rfl | rfl | rfl | rfl <;> exact pair_sub_le _

theorem nibble_add_lt (byte : UInt8) : (byte &&& 0x33).toNat + (field 2 0x33 byte).toNat < 256 := by
  have hmask : (0x33 : UInt8).toNat = 51 := rfl
  rw [UInt8.toNat_and, Words.toNat_field, hmask]
  have hlow : byte.toNat &&& 51 ≤ 51 := Nat.and_le_right
  have hhigh : byte.toNat / 2 ^ 2 &&& 51 ≤ 51 := Nat.and_le_right
  omega

/-- The second step on a word is the step on each of its bytes. -/
theorem load_nibbles : (load 32 [a, b, c, d] &&& 0x33333333#32) + (load 32 [a, b, c, d] >>> 2 &&& 0x33333333#32) =
    load 32 [nibbles a, nibbles b, nibbles c, nibbles d] := by
  have hmask : 0x33333333#32 = load 32 ([a, b, c, d].map fun _ => 0x33) := by
    simp only [List.map_cons, List.map_nil]
    decide
  have hsize : 8 * [a, b, c, d].length ≤ 32 := Nat.le_refl _
  rw [hmask, Words.load_shift_and (by decide) hsize (by decide), Words.load_and (by simp)]
  refine Words.load_add (by simp) hsize ?_
  intro p hp
  simp only [List.zip_cons_cons, List.map_cons, List.map_nil, List.zipWith_cons_cons, List.zipWith_nil_left, List.zip_nil_left,
    List.mem_cons, List.not_mem_nil, or_false] at hp
  rcases hp with rfl | rfl | rfl | rfl <;> exact nibble_add_lt _

/-- Both halves of a byte are counts, which do not need the whole half. -/
def Small (byte : UInt8) : Prop := byte.toNat % 16 ≤ 4 ∧ byte.toNat / 16 ≤ 4

set_option maxRecDepth 4000 in
/-- The three steps on a byte, for all 256 of them. After two each half is a count of at most
four, so that the third addition has room, and after the third the byte is the number of the
bits that were set. -/
theorem steps_of_byte : ∀ byte, Small (nibbles (pairs byte)) ∧ (whole (nibbles (pairs byte))).toNat = set_bits byte :=
  forall_byte (by unfold Small; decide)

theorem shifted_four (a b : UInt8) : (⟨a.toBitVec >>> 4 ||| b.toBitVec <<< (8 - 4)⟩ : UInt8).toNat = a.toNat / 16 + b.toNat % 16 * 16 :=
  Words.toNat_shifted a.toBitVec b.toBitVec (by decide)

theorem toNat_whole (byte : UInt8) : (whole byte).toNat = byte.toNat % 16 + byte.toNat / 16 := by
  have hmask : (0xF : UInt8).toNat = 2 ^ 4 - 1 := rfl
  have hhigh : byte.toNat / 2 ^ 4 < 2 ^ 4 := Nat.div_lt_of_lt_mul byte.toNat_lt
  rw [whole, UInt8.toNat_add, UInt8.toNat_and, Words.toNat_field, hmask, Nat.and_two_pow_sub_one_eq_mod,
    Nat.and_two_pow_sub_one_eq_mod, Nat.mod_eq_of_lt hhigh]
  omega

/-- The third step, whose shift brings bits of the next byte, is right after the mask. -/
theorem small_add_and (ha : Small a) (b : UInt8) :
    (a + ⟨a.toBitVec >>> 4 ||| b.toBitVec <<< (8 - 4)⟩) &&& 0xF = whole a := by
  obtain ⟨halow, hahigh⟩ := ha
  apply UInt8.toNat_inj.mp
  have hmask : (0xF : UInt8).toNat = 2 ^ 4 - 1 := rfl
  rw [UInt8.toNat_and, hmask, Nat.and_two_pow_sub_one_eq_mod, UInt8.toNat_add, shifted_four, toNat_whole]
  omega

/-- It does not carry either, although the mask comes after the addition. -/
theorem small_add_lt (ha : Small a) (hb : Small b) :
    a.toNat + (⟨a.toBitVec >>> 4 ||| b.toBitVec <<< (8 - 4)⟩ : UInt8).toNat < 256 := by
  obtain ⟨halow, hahigh⟩ := ha
  obtain ⟨hblow, hbhigh⟩ := hb
  rw [shifted_four]
  omega

/-- The third step on a word is the step on each of its bytes. Here the word has to be one of
small counts. -/
theorem load_whole (ha : Small a) (hb : Small b) (hc : Small c) (hd : Small d) :
    load 32 [a, b, c, d] + load 32 [a, b, c, d] >>> 4 &&& 0xF0F0F0F#32 = load 32 [whole a, whole b, whole c, whole d] := by
  have hmask : 0xF0F0F0F#32 = load 32 [0xF, 0xF, 0xF, 0xF] := by decide
  have hsize : 8 * [a, b, c, d].length ≤ 32 := Nat.le_refl _
  have hzero : Small 0 := ⟨Nat.zero_le _, Nat.zero_le _⟩
  have hadds : Words.Adds [a, b, c, d] (Words.shifted 4 [a, b, c, d]) := by
    intro p hp
    simp only [Words.shifted, List.headD_cons, List.headD_nil, List.zip_cons_cons, List.zip_nil_left, List.mem_cons,
      List.not_mem_nil, or_false] at hp
    rcases hp with rfl | rfl | rfl | rfl
    · exact small_add_lt ha hb
    · exact small_add_lt hb hc
    · exact small_add_lt hc hd
    · exact small_add_lt hd hzero
  rw [Words.load_shift (by decide) hsize, Words.load_add (Words.length_shifted ..).symm hsize hadds, hmask, Words.load_and (by simp)]
  simp only [Words.shifted, List.headD_cons, List.headD_nil, List.zipWith_cons_cons, List.zipWith_nil_left, small_add_and ha,
    small_add_and hb, small_add_and hc, small_add_and hd]

theorem set_bits_le (byte : UInt8) : set_bits byte ≤ 8 := Nat.count_le _

/-- The multiplication adds the four bytes in the highest one. -/
theorem mul_shift (ha : a.toNat ≤ 8) (hb : b.toNat ≤ 8) (hc : c.toNat ≤ 8) (hd : d.toNat ≤ 8) :
    ((load 32 [a, b, c, d] * 0x01010101#32) >>> 24).toNat = a.toNat + b.toNat + c.toNat + d.toNat := by
  have hload : (load 32 [a, b, c, d]).toNat = a.toNat + 256 * (b.toNat + 256 * (c.toNat + 256 * d.toNat)) := by
    have hfour : 8 * [a, b, c, d].length ≤ 32 := Nat.le_refl _
    have hthree : 8 * [b, c, d].length ≤ 32 := by simp
    have htwo : 8 * [c, d].length ≤ 32 := by simp
    have hone : 8 * [d].length ≤ 32 := by simp
    rw [Words.toNat_load_cons hfour, Words.toNat_load_cons hthree, Words.toNat_load_cons htwo, Words.toNat_load_cons hone]
    rfl
  have hfactor : (0x01010101#32).toNat = 16843009 := rfl
  -- what is below the highest byte of the product, and what is cut off above it
  obtain ⟨low, hlow⟩ : ∃ low, low = a.toNat + 256 * (a.toNat + b.toNat) + 65536 * (a.toNat + b.toNat + c.toNat) := ⟨_, rfl⟩
  obtain ⟨high, hhigh⟩ : ∃ high, high = b.toNat + 257 * c.toNat + 65793 * d.toNat := ⟨_, rfl⟩
  have hproduct : (a.toNat + 256 * (b.toNat + 256 * (c.toNat + 256 * d.toNat))) * 16843009 =
      low + 2 ^ 24 * (a.toNat + b.toNat + c.toNat + d.toNat) + 2 ^ 32 * high := by omega
  have hbelow : low + 2 ^ 24 * (a.toNat + b.toNat + c.toNat + d.toNat) < 2 ^ 32 := by omega
  rw [BitVec.toNat_ushiftRight, BitVec.toNat_mul, hload, hfactor, hproduct, Nat.shiftRight_eq_div_pow, Nat.add_mul_mod_self_left,
    Nat.mod_eq_of_lt hbelow]
  omega

/-- A word of four equal bytes is recognized by its value, which is how the words `0` and
`0xffffffff` are skipped. -/
theorem eq_replicate_of_load {x : UInt8} (h : load 32 [a, b, c, d] = load 32 [x, x, x, x]) : a = x ∧ b = x ∧ c = x ∧ d = x := by
  have hsize : 8 * [a, b, c, d].length ≤ 32 := Nat.le_refl _
  have hlength : [a, b, c, d].length = [x, x, x, x].length := rfl
  have hlist := Words.load_injective hsize hlength h
  simpa using hlist

/-- The bits of a word are those of its four bytes. The multiplication cannot overflow, as there
are 32 of them at most. -/
theorem toNat_bits_of_word : (bits_of_word (load 32 [a, b, c, d])).toNat = set_bits a + set_bits b + set_bits c + set_bits d := by
  rw [bits_of_word]
  split
  · rename_i hones
    have hmask : (0xffffffff : BitVec 32) = load 32 [255, 255, 255, 255] := by decide
    obtain ⟨rfl, rfl, rfl, rfl⟩ := eq_replicate_of_load (hones.trans hmask)
    decide
  · simp only [load_pairs, load_nibbles]
    have hsmall : ∀ byte, Small (nibbles (pairs byte)) := fun byte => (steps_of_byte byte).1
    have hbits : ∀ byte, (whole (nibbles (pairs byte))).toNat = set_bits byte := fun byte => (steps_of_byte byte).2
    have hroom : ∀ byte, (whole (nibbles (pairs byte))).toNat ≤ 8 := fun byte => hbits byte ▸ set_bits_le byte
    rw [load_whole (hsmall a) (hsmall b) (hsmall c) (hsmall d)]
    refine (mul_shift (hroom a) (hroom b) (hroom c) (hroom d)).trans ?_
    rw [hbits, hbits, hbits, hbits]

end swar

section bytes

variable {bytes : List UInt8} {b : Nat}

/-- The bytes of the mask for one of them. -/
def masked_byte (b : Nat) : List UInt8 := (List.replicate 4 0).set b 255

theorem FF_eq (hb : b < 4) : FF b = load 32 (masked_byte b) := by
  interval_cases b <;> decide

theorem and_255 (byte : UInt8) : byte &&& 255 = byte := UInt8.toBitVec_inj.mp BitVec.and_allOnes

/-- A masked word has one byte of the word and is 0 elsewhere. -/
theorem and_FF (hbytes : bytes.length = 4) (hb : b < 4) :
    load 32 bytes &&& FF b = load 32 ((List.replicate 4 0).set b (bytes.getD b 0)) := by
  obtain ⟨x, y, z, u, rfl⟩ := List.length_eq_four.mp hbytes
  rw [FF_eq hb, Words.load_and (by simp [masked_byte])]
  interval_cases b <;> simp [masked_byte, List.replicate, and_255]

theorem set_replicate_inj {x y : UInt8} (hb : b < 4) : (List.replicate 4 0).set b x = (List.replicate 4 0).set b y ↔ x = y := by
  interval_cases b <;> simp [List.replicate]

/-- A byte of a word is masked as a byte. -/
theorem and_FF_eq_iff {x : UInt8} (hbytes : bytes.length = 4) (hb : b < 4) :
    load 32 bytes &&& FF b = load 32 ((List.replicate 4 0).set b x) ↔ bytes.getD b 0 = x := by
  rw [and_FF hbytes hb, ← set_replicate_inj hb]
  exact ⟨Words.load_injective (by simp) (by simp), congrArg (load 32)⟩

theorem and_FF_eq_zero_iff (hbytes : bytes.length = 4) (hb : b < 4) : load 32 bytes &&& FF b = 0 ↔ bytes.getD b 0 = 0 := by
  have hzero : (0 : BitVec 32) = load 32 ((List.replicate 4 0).set b 0) := by
    interval_cases b <;> decide
  rw [hzero]
  exact and_FF_eq_iff hbytes hb

theorem and_FF_eq_FF_iff (hbytes : bytes.length = 4) (hb : b < 4) : load 32 bytes &&& FF b = FF b ↔ bytes.getD b 0 = 255 := by
  rw [← and_FF_eq_iff hbytes hb, FF_eq hb, masked_byte]

/-- Four tests, each of which is one on its own byte, count the bytes that meet it. -/
theorem toNat_count_four {p : Nat → Bool} {q : UInt8 → Bool} (hbytes : bytes.length = 4)
    (h : ∀ b < 4, p b = q (bytes.getD b 0)) : (count_four p).toNat = bytes.countP q := by
  obtain ⟨x, y, z, u, rfl⟩ := List.length_eq_four.mp hbytes
  rw [count_four, h 0 (by decide), h 1 (by decide), h 2 (by decide), h 3 (by decide)]
  simp only [List.getD_cons_zero, List.getD_cons_succ, List.countP_cons, List.countP_nil]
  cases q x <;> cases q y <;> cases q z <;> cases q u <;> rfl

theorem toNat_bytes_of_word (hbytes : bytes.length = 4) : (bytes_of_word (load 32 bytes)).toNat = bytes.countP (· ≠ 0) := by
  rw [bytes_of_word]
  split
  · rename_i hzero
    rw [Words.load_eq_zero_iff (by simp [hbytes])] at hzero
    exact (List.countP_eq_zero.mpr fun byte hbyte => by simp [hzero byte hbyte]).symm
  · exact toNat_count_four hbytes fun b hb => by simp only [ne_eq, and_FF_eq_zero_iff hbytes hb]

theorem toNat_non_255_bytes_of_word (hbytes : bytes.length = 4) :
    (non_255_bytes_of_word (load 32 bytes)).toNat = bytes.countP (· ≠ 255) := by
  rw [non_255_bytes_of_word]
  split
  · rename_i hones
    have hmask : (0xffffffff : BitVec 32) = load 32 [255, 255, 255, 255] := by decide
    have hlist := Words.load_injective (by simp [hbytes]) (by simp [hbytes]) (hones.trans hmask)
    rw [hlist]
    decide
  · exact toNat_count_four hbytes fun b hb => by simp only [ne_eq, and_FF_eq_FF_iff hbytes hb]

end bytes

section maps

variable {of_word : BitVec 32 → UInt32} {count : List UInt8 → Nat} {mem : List UInt8} {ret : UInt32} {i : Nat}

/-- What the words count is what their bytes do. -/
theorem toNat_count_words (happend : ∀ a b, count (a ++ b) = count a + count b)
    (hword : ∀ bytes : List UInt8, bytes.length = 4 → (of_word (load 32 bytes)).toNat = count bytes)
    (hlength : mem.length = 4 * i) (hroom : ret.toNat + count mem < 2 ^ 32) :
    (count_words of_word i mem ret).toNat = ret.toNat + count mem := by
  induction i generalizing mem ret with
  | zero =>
    obtain rfl := List.eq_nil_of_length_eq_zero hlength
    have hnil : count [] = 0 := Nat.add_eq_left.mp (happend [] []).symm
    rw [count_words, hnil, Nat.add_zero]
  | succ i ih =>
    have hfour : (mem.take 4).length = 4 := by
      rw [List.length_take]
      omega
    have hsplit : count mem = count (mem.take 4) + count (mem.drop 4) := by rw [← happend, List.take_append_drop]
    have hret : (ret + of_word (load 32 (mem.take 4))).toNat = ret.toNat + count (mem.take 4) := by
      rw [UInt32.toNat_add, hword _ hfour]
      exact Nat.mod_eq_of_lt (by omega)
    rw [count_words, ih (by rw [List.length_drop]; omega) (by rw [hret]; omega), hret, hsplit, Nat.add_assoc]

/-- The bits of a map, eight to a byte. -/
def map_bit (mem : List UInt8) (k : Nat) : Bool := (mem.getD (k / 8) 0).toBitVec.getLsbD (k % 8)

/-- The number of bits that are set in a map. -/
def bits_set (mem : List UInt8) : Nat := Nat.count (fun k => map_bit mem k = true) (8 * mem.length)

theorem map_bit_append_left {a b : List UInt8} {k : Nat} (hk : k < 8 * a.length) : map_bit (a ++ b) k = map_bit a k := by
  rw [map_bit, map_bit, List.getD_eq_getElem?_getD, List.getElem?_append_left (by omega), List.getD_eq_getElem?_getD]

theorem map_bit_append_right (a b : List UInt8) (k : Nat) : map_bit (a ++ b) (8 * a.length + k) = map_bit b k := by
  rw [map_bit, map_bit, Nat.mul_add_div (by decide), Nat.mul_add_mod, List.getD_eq_getElem?_getD,
    List.getElem?_append_right (Nat.le_add_right ..), Nat.add_sub_cancel_left, List.getD_eq_getElem?_getD]

theorem bits_set_append (a b : List UInt8) : bits_set (a ++ b) = bits_set a + bits_set b := by
  have hleft : Nat.count (fun k => map_bit (a ++ b) k = true) (8 * a.length) = bits_set a :=
    Count.count_congr fun k hk => by rw [map_bit_append_left hk]
  have hright : Nat.count (fun k => map_bit (a ++ b) (8 * a.length + k) = true) (8 * b.length) = bits_set b :=
    Count.count_congr fun k _ => by rw [map_bit_append_right]
  rw [bits_set, List.length_append, Nat.mul_add, Nat.count_add, hleft, hright]

theorem bits_set_singleton (byte : UInt8) : bits_set [byte] = set_bits byte := by
  refine Count.count_congr fun k hk => ?_
  have hk : k < 8 := hk
  rw [map_bit, Nat.div_eq_of_lt hk, Nat.mod_eq_of_lt hk, List.getD_cons_zero]

theorem bits_set_le (mem : List UInt8) : bits_set mem ≤ 8 * mem.length := Nat.count_le _

theorem toNat_bits_of_bytes {bytes : List UInt8} (hbytes : bytes.length = 4) : (bits_of_word (load 32 bytes)).toNat = bits_set bytes := by
  obtain ⟨x, y, z, u, rfl⟩ := List.length_eq_four.mp hbytes
  have hsplit : [x, y, z, u] = [x] ++ [y] ++ [z] ++ [u] := rfl
  rw [toNat_bits_of_word, hsplit, bits_set_append, bits_set_append, bits_set_append]
  simp only [bits_set_singleton]

/-- The number is exact for every map whose bits a `u32` can count. Maps have whole words. -/
theorem toNat_count_bits (hwords : 4 ∣ mem.length) (hroom : mem.length < 2 ^ 29) : (count_bits mem).toNat = bits_set mem := by
  have hle := bits_set_le mem
  have hcount := toNat_count_words  bits_set_append (fun _ => toNat_bits_of_bytes) (Nat.mul_div_cancel' hwords).symm
    (by rw [UInt32.toNat_zero]; omega)
  rw [count_bits, hcount, UInt32.toNat_zero, Nat.zero_add]

theorem toNat_count_bytes (hwords : 4 ∣ mem.length) (hroom : mem.length < 2 ^ 29) :
    (count_bytes mem).toNat = mem.countP (· ≠ 0) := by
  have hle : mem.countP (· ≠ 0) ≤ mem.length := List.countP_le_length
  have hcount := toNat_count_words  (fun _ _ => List.countP_append) (fun _ => toNat_bytes_of_word)
    (Nat.mul_div_cancel' hwords).symm (by rw [UInt32.toNat_zero]; omega)
  rw [count_bytes, hcount, UInt32.toNat_zero, Nat.zero_add]

/-- The count of the bytes that are not 255 is exact as well. In a virgin map they are the edges
of which something has been seen. -/
theorem toNat_count_non_255_bytes (hwords : 4 ∣ mem.length) (hroom : mem.length < 2 ^ 29) :
    (count_non_255_bytes mem).toNat = mem.countP (· ≠ 255) := by
  have hle : mem.countP (· ≠ 255) ≤ mem.length := List.countP_le_length
  have hcount := toNat_count_words  (fun _ _ => List.countP_append) (fun _ => toNat_non_255_bytes_of_word)
    (Nat.mul_div_cancel' hwords).symm (by rw [UInt32.toNat_zero]; omega)
  rw [count_non_255_bytes, hcount, UInt32.toNat_zero, Nat.zero_add]

end maps

end aflnet
