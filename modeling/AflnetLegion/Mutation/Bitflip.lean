import AflnetLegion.Lib.Words
import Mathlib.Algebra.Group.Nat.Defs
import Mathlib.Data.List.Basic

open Words (load)

namespace aflnet

/-- Shifts until the first bit is set, which a word other than 0 has within 32 rounds. The
shifts are counted. -/
def shift_to_first_bit : Nat → Nat → UInt32 → Nat × UInt32
  | 0, sh, xor_val => (sh, xor_val)
  | rounds + 1, sh, xor_val =>
    if xor_val &&& 1 = 0 then shift_to_first_bit rounds (sh + 1) (xor_val >>> 1) else (sh, xor_val)

/-- `could_be_bitflip`: the lowest set bit is shifted to the front, and what is left has to be
one of six patterns. Those of whole bytes have to be aligned. -/
def could_be_bitflip (xor_val : UInt32) : Bool :=
  if xor_val = 0 then true
  else
    let (sh, xor_val) := shift_to_first_bit 32 0 xor_val
    if xor_val = 1 ∨ xor_val = 3 ∨ xor_val = 15 then true
    else if sh % 8 ≠ 0 then false
    else xor_val = 0xff ∨ xor_val = 0xffff ∨ xor_val = 0xffffffff

/-- `FLIP_BIT`, which takes the bits of a byte from the most significant one on, so that
positions that follow each other are neighbours within a byte only. -/
def FLIP_BIT (ar : List UInt8) (b : Nat) : List UInt8 := ar.modify (b / 8) fun byte => byte ^^^ 128 >>> UInt8.ofNat (b % 8)

/-- A round of a stage that flips bits or bytes: some bits from bit `stage_cur` on, or some
whole bytes from byte `i` on. -/
inductive Flip where
  | walking (bits stage_cur : Nat)
  | whole (bytes i : Nat)
  deriving DecidableEq, Repr

/-- The flips of the stages on `len` bytes: one, two or four bits, or as many bytes, that are
all in the buffer. -/
def Flip.Tried (len : Nat) : Flip → Prop
  | walking bits stage_cur => (bits = 1 ∨ bits = 2 ∨ bits = 4) ∧ stage_cur + bits ≤ 8 * len
  | whole bytes i => (bytes = 1 ∨ bytes = 2 ∨ bytes = 4) ∧ i + bytes ≤ len

/-- The buffer after a flip. Flipping twice gives the buffer back. -/
def Flip.apply (out_buf : List UInt8) : Flip → List UInt8
  | walking bits stage_cur => (List.range bits).foldl (fun buf k => FLIP_BIT buf (stage_cur + k)) out_buf
  | whole bytes i => (List.range bytes).foldl (fun buf k => buf.modify (i + k) fun byte => byte ^^^ 0xff) out_buf

/-- What differs between the words in these bytes, at most four. -/
def xor_val (old new : List UInt8) : UInt32 := ⟨load 32 old ^^^ load 32 new⟩

/-- A run of set bits, the first of which is bit `s`. -/
def Run (x s bits : Nat) : Prop := x = (2 ^ bits - 1) * 2 ^ s

/-- A run of two or four bits that lies in more than one byte. -/
def Straddles (xor_val : UInt32) : Prop := ∃ s bits, (bits = 2 ∨ bits = 4) ∧ 8 < s % 8 + bits ∧ Run xor_val.toNat s bits

section could_be_bitflip

variable {x y : UInt32} {s t bits i : Nat}

theorem Run.testBit {x : Nat} (h : Run x s bits) (i : Nat) : x.testBit i = decide (s ≤ i ∧ i < s + bits) := by
  rw [Run] at h
  rw [h, Nat.testBit_mul_two_pow, Nat.testBit_two_pow_sub_one, ← Bool.decide_and]
  congr 1
  exact propext (and_congr_right fun hle => by omega)

/-- The shifted value is odd, and is shifted back by multiplication. -/
theorem shift_to_first_bit_spec (rounds : Nat) (hne : x ≠ 0) (hlt : x.toNat < 2 ^ rounds) :
    ∃ t y, shift_to_first_bit rounds s x = (s + t, y) ∧ y.toNat % 2 = 1 ∧ x.toNat = y.toNat * 2 ^ t := by
  induction rounds generalizing s x with
  | zero =>
    have hzero : x.toNat = 0 := by omega
    exact absurd (UInt32.toNat_inj.mp hzero) hne
  | succ rounds ih =>
    have hbit : x &&& 1 = 0 ↔ x.toNat % 2 = 0 := by
      rw [← UInt32.toNat_inj, UInt32.toNat_and]
      exact Nat.and_one_is_mod _ ▸ Iff.rfl
    rw [shift_to_first_bit]
    split
    · rename_i heven
      have hhalf : (x >>> 1).toNat = x.toNat / 2 := UInt32.toNat_shiftRight x 1
      rw [hbit] at heven
      have hnext : x >>> 1 ≠ 0 := by
        intro hzero
        rw [hzero, UInt32.toNat_zero] at hhalf
        exact hne (UInt32.toNat_inj.mp (by rw [UInt32.toNat_zero]; omega))
      obtain ⟨t, y, hshift, hodd, hback⟩ := ih (s := s + 1) hnext (by omega)
      refine ⟨t + 1, y, ?_, hodd, ?_⟩
      · rw [hshift, Nat.add_right_comm, Nat.add_assoc]
      · rw [Nat.pow_succ, ← Nat.mul_assoc, ← hback, hhalf]
        omega
    · rename_i hodd
      refine ⟨0, x, rfl, ?_, (Nat.mul_one _).symm⟩
      rw [hbit] at hodd
      omega

/-- The runs that are recognised. -/
def Recognised (s bits : Nat) : Prop :=
  bits = 1 ∨ bits = 2 ∨ bits = 4 ∨ s % 8 = 0 ∧ (bits = 8 ∨ bits = 16 ∨ bits = 32)

/-- A number is an odd number times a power of two in one way only. -/
theorem odd_part_unique {a b : Nat} (ha : a % 2 = 1) (hb : b % 2 = 1) (h : a * 2 ^ s = b * 2 ^ t) : a = b ∧ s = t := by
  induction s generalizing t with
  | zero =>
    cases t with
    | zero => exact ⟨by simpa using h, rfl⟩
    | succ t =>
      rw [Nat.pow_zero, Nat.mul_one, Nat.pow_succ, ← Nat.mul_assoc] at h
      omega
  | succ s ih =>
    cases t with
    | zero =>
      rw [Nat.pow_zero, Nat.mul_one, Nat.pow_succ, ← Nat.mul_assoc] at h
      omega
    | succ t =>
      rw [Nat.pow_succ, Nat.pow_succ, ← Nat.mul_assoc, ← Nat.mul_assoc] at h
      obtain ⟨heq, hst⟩ := ih (Nat.eq_of_mul_eq_mul_right Nat.two_pos h)
      exact ⟨heq, congrArg Nat.succ hst⟩

theorem Recognised.odd (h : Recognised s bits) : (2 ^ bits - 1) % 2 = 1 := by
  rcases h with rfl | rfl | rfl | ⟨_, rfl | rfl | rfl⟩ <;> decide

/-- The tests on what is left after the shifts. -/
theorem recognised_iff (t : Nat) (y : UInt32) :
    (if y = 1 ∨ y = 3 ∨ y = 15 then true
      else if t % 8 ≠ 0 then false else decide (y = 0xff ∨ y = 0xffff ∨ y = 0xffffffff)) = true ↔
      ∃ bits, Recognised t bits ∧ y.toNat = 2 ^ bits - 1 := by
  have hvalue : ∀ v : UInt32, y = v ↔ y.toNat = v.toNat := fun v => UInt32.toNat_inj.symm
  simp only [hvalue]
  constructor
  · intro h
    split at h
    · rename_i hsmall
      rcases hsmall with hy | hy | hy
      · exact ⟨1, Or.inl rfl, hy⟩
      · exact ⟨2, Or.inr (Or.inl rfl), hy⟩
      · exact ⟨4, Or.inr (Or.inr (Or.inl rfl)), hy⟩
    · split at h
      · cases h
      · rename_i haligned
        have hshift : t % 8 = 0 := not_not.mp haligned
        rcases of_decide_eq_true h with hy | hy | hy
        · exact ⟨8, Or.inr (Or.inr (Or.inr ⟨hshift, Or.inl rfl⟩)), hy⟩
        · exact ⟨16, Or.inr (Or.inr (Or.inr ⟨hshift, Or.inr (Or.inl rfl)⟩)), hy⟩
        · exact ⟨32, Or.inr (Or.inr (Or.inr ⟨hshift, Or.inr (Or.inr rfl)⟩)), hy⟩
  · rintro ⟨bits, hbits, hy⟩
    rw [hy]
    rcases hbits with rfl | rfl | rfl | ⟨hshift, rfl | rfl | rfl⟩ <;> simp_all

/-- A word is recognised if and only if it is one of these runs. -/
theorem could_be_bitflip_iff (hne : x ≠ 0) :
    could_be_bitflip x = true ↔ ∃ s bits, Recognised s bits ∧ Run x.toNat s bits := by
  obtain ⟨t, y, hshift, hodd, hback⟩ := shift_to_first_bit_spec 32 (s := 0) hne x.toNat_lt
  rw [Nat.zero_add] at hshift
  rw [could_be_bitflip, if_neg hne, hshift]
  refine (recognised_iff t y).trans ⟨fun ⟨bits, hbits, hy⟩ => ⟨t, bits, hbits, ?_⟩, fun ⟨s, bits, hbits, hrun⟩ => ?_⟩
  · rw [Run, hback, hy]
  · rw [Run, hback] at hrun
    obtain ⟨hy, rfl⟩ := odd_part_unique hodd hbits.odd hrun
    exact ⟨bits, hbits, hy⟩

end could_be_bitflip

/-- A bit of a buffer, counted as in the words: the least significant one of each byte first. -/
def bit (buf : List UInt8) (i : Nat) : Bool := (buf.getD (i / 8) 0).toBitVec.getLsbD (i % 8)

/-- The number of such a bit for `FLIP_BIT`, which takes the most significant one of each byte first. -/
def walking_number (i : Nat) : Nat := 8 * (i / 8) + (7 - i % 8)

/-- Whether a flip changes a bit, by its number as `FLIP_BIT` counts. -/
def Flip.hits (i : Nat) : Flip → Bool
  | walking bits stage_cur => stage_cur ≤ walking_number i ∧ walking_number i < stage_cur + bits
  | whole bytes j => j ≤ i / 8 ∧ i / 8 < j + bytes

section flips

variable {buf old new : List UInt8} {b i j n : Nat}

theorem bit_modify (hj : j < buf.length) (f : UInt8 → UInt8) (i : Nat) :
    bit (buf.modify j f) i = if i / 8 = j then (f (buf.getD j 0)).toBitVec.getLsbD (i % 8) else bit buf i := by
  rw [bit, List.getD_eq_getElem?_getD, List.getElem?_modify]
  split
  · rename_i hbyte
    subst hbyte
    simp [hj]
  · rename_i hbyte
    simp [Ne.symm hbyte, bit]

theorem length_FLIP_BIT (buf : List UInt8) (b : Nat) : (FLIP_BIT buf b).length = buf.length := List.length_modify ..

theorem bit_FLIP_BIT (hb : b < 8 * buf.length) (i : Nat) :
    bit (FLIP_BIT buf b) i = (bit buf i ^^ decide (walking_number i = b)) := by
  have hmask : ∀ k < 8, ((128 : UInt8) >>> UInt8.ofNat k).toBitVec = BitVec.twoPow 8 (7 - k) := by decide
  rw [FLIP_BIT, bit_modify (by omega), UInt8.toBitVec_xor, BitVec.getLsbD_xor, hmask _ (Nat.mod_lt _ (by decide)),
    BitVec.getLsbD_twoPow, walking_number]
  split
  · rename_i hbyte
    rw [bit, hbyte]
    congr 1
    rw [Bool.eq_iff_iff]
    simp
    omega
  · rename_i hbyte
    have hne : 8 * (i / 8) + (7 - i % 8) ≠ b := by omega
    rw [decide_eq_false hne, Bool.xor_false]

/-- One more number at the end of an interval. -/
theorem xor_next (j n m : Nat) :
    (decide (j ≤ m ∧ m < j + n) ^^ decide (m = j + n)) = decide (j ≤ m ∧ m < j + (n + 1)) := by
  by_cases hm : m = j + n
  · simp [hm]
  · rw [decide_eq_false hm, Bool.xor_false]
    congr 1
    exact propext ⟨fun h => by omega, fun h => by omega⟩

/-- The walking bits one after the other. -/
theorem bit_walking (hend : j + n ≤ 8 * buf.length) :
    ((List.range n).foldl (fun buf k => FLIP_BIT buf (j + k)) buf).length = buf.length ∧ ∀ i,
      bit ((List.range n).foldl (fun buf k => FLIP_BIT buf (j + k)) buf) i =
        (bit buf i ^^ decide (j ≤ walking_number i ∧ walking_number i < j + n)) := by
  induction n with
  | zero =>
    refine ⟨rfl, fun i => ?_⟩
    rw [decide_eq_false (by omega), Bool.xor_false]
    rfl
  | succ n ih =>
    obtain ⟨hlength, hbits⟩ := ih (by omega)
    rw [List.range_succ, List.foldl_concat]
    refine ⟨(length_FLIP_BIT _ _).trans hlength, fun i => ?_⟩
    rw [bit_FLIP_BIT (by omega), hbits, Bool.xor_assoc, xor_next]

/-- The bytes one after the other. -/
theorem bit_whole (hend : j + n ≤ buf.length) :
    ((List.range n).foldl (fun buf k => buf.modify (j + k) fun byte => byte ^^^ 0xff) buf).length = buf.length ∧ ∀ i,
      bit ((List.range n).foldl (fun buf k => buf.modify (j + k) fun byte => byte ^^^ 0xff) buf) i =
        (bit buf i ^^ decide (j ≤ i / 8 ∧ i / 8 < j + n)) := by
  induction n with
  | zero =>
    refine ⟨rfl, fun i => ?_⟩
    rw [decide_eq_false (by omega), Bool.xor_false]
    rfl
  | succ n ih =>
    obtain ⟨hlength, hbits⟩ := ih (by omega)
    rw [List.range_succ, List.foldl_concat]
    refine ⟨(List.length_modify ..).trans hlength, fun i => ?_⟩
    have hin : j + n < ((List.range n).foldl (fun buf k => buf.modify (j + k) fun byte => byte ^^^ 0xff) buf).length := by
      omega
    have hones : (0xff : UInt8).toBitVec.getLsbD (i % 8) = true := by
      have hall : ∀ k < 8, (0xff : UInt8).toBitVec.getLsbD k = true := by decide
      exact hall _ (Nat.mod_lt _ (by decide))
    rw [bit_modify hin, ← xor_next, ← Bool.xor_assoc, ← hbits]
    split
    · rename_i hbyte
      rw [UInt8.toBitVec_xor, BitVec.getLsbD_xor, hones, bit, hbyte]
      simp
    · rename_i hbyte
      rw [decide_eq_false hbyte, Bool.xor_false]

/-- A flip changes the bits that it hits. -/
theorem bit_apply {f : Flip} (hf : f.Tried buf.length) :
    (f.apply buf).length = buf.length ∧ ∀ i, bit (f.apply buf) i = (bit buf i ^^ f.hits i) := by
  cases f with
  | walking bits stage_cur => exact bit_walking hf.2
  | whole bytes i => exact bit_whole hf.2

end flips

section soundness

variable {old new : List UInt8} {f : Flip} {s bits i : Nat}

/-- The bits of the exclusive or are those in which the two words differ. -/
theorem testBit_xor_val (old new : List UInt8) (hi : i < 32) : (xor_val old new).toNat.testBit i = (bit old i ^^ bit new i) := by
  change (load 32 old ^^^ load 32 new).toNat.testBit i = _
  rw [BitVec.testBit_toNat, BitVec.getLsbD_xor, Words.getLsbD_load hi, Words.getLsbD_load hi, bit, bit]

/-- A flip leads from one word to the other if and only if it hits the bits that differ. -/
theorem apply_eq_iff (hlength : old.length = new.length) (hsize : 8 * old.length ≤ 32) (hf : f.Tried old.length) :
    f.apply old = new ↔ ∀ i < 32, (xor_val old new).toNat.testBit i = f.hits i := by
  obtain ⟨happly, hbits⟩ := bit_apply hf
  constructor
  · rintro rfl i hi
    rw [testBit_xor_val _ _ hi, hbits, ← Bool.xor_assoc, Bool.xor_self, Bool.false_xor]
  · intro h
    refine Words.load_injective (w := 32) (happly ▸ hsize) (happly.trans hlength) ?_
    apply BitVec.eq_of_getLsbD_eq
    intro i hi
    rw [Words.getLsbD_load hi, Words.getLsbD_load hi, ← bit, ← bit, hbits, ← h i hi, testBit_xor_val _ _ hi,
      ← Bool.xor_assoc, Bool.xor_self, Bool.false_xor]

theorem xor_val_ne_zero (hlength : old.length = new.length) (hsize : 8 * old.length ≤ 32) (hne : old ≠ new) :
    xor_val old new ≠ 0 := by
  intro hzero
  refine hne (Words.load_injective (w := 32) hsize hlength ?_)
  have hxor : load 32 old ^^^ load 32 new = 0 := congrArg UInt32.toBitVec hzero
  exact BitVec.xor_eq_zero_iff.mp hxor

/-- There is nothing above the last byte. -/
theorem xor_val_lt (hlength : old.length = new.length) (h : (xor_val old new).toNat.testBit i = true) (hi : i < 32) :
    i < 8 * old.length := by
  by_contra hge
  have hnone : ∀ buf : List UInt8, buf.length = old.length → bit buf i = false := by
    intro buf hbuf
    have hout : buf[i / 8]? = none := List.getElem?_eq_none (by omega)
    simp [bit, hout]
  rw [testBit_xor_val _ _ hi, hnone old rfl, hnone new hlength.symm] at h
  cases h

theorem Run.end_le {x : UInt32} (h : Run x.toNat s bits) (hpos : 0 < bits) : s + bits ≤ 32 := by
  by_contra hgt
  have hlast := h.testBit (s + bits - 1)
  have hlarge : x.toNat < 2 ^ (s + bits - 1) :=
    Nat.lt_of_lt_of_le x.toNat_lt (Nat.pow_le_pow_right Nat.two_pos (by omega))
  rw [decide_eq_true (by omega), Nat.testBit_lt_two_pow hlarge] at hlast
  cases hlast

theorem Run.end_inside (hlength : old.length = new.length)
    (hrun : Run (xor_val old new).toNat s bits) (hpos : 0 < bits) : s + bits ≤ 8 * old.length := by
  have hlast := hrun.testBit (s + bits - 1)
  rw [decide_eq_true (by omega)] at hlast
  have hle := hrun.end_le hpos
  have hlt := xor_val_lt hlength hlast (by omega)
  omega

/-- The first of the walking bits is the last one of the run. -/
theorem Run.walking (hlength : old.length = new.length) (hsize : 8 * old.length ≤ 32)
    (hrun : Run (xor_val old new).toNat s bits) (hbits : bits = 1 ∨ bits = 2 ∨ bits = 4) (hwithin : s % 8 + bits ≤ 8) :
    ∃ f, Flip.Tried old.length f ∧ f.apply old = new := by
  have hend := hrun.end_inside hlength (by omega)
  have htried : Flip.Tried old.length (.walking bits (walking_number (s + bits - 1))) := by
    refine ⟨hbits, ?_⟩
    rw [walking_number]
    omega
  refine ⟨_, htried, (apply_eq_iff hlength hsize htried).mpr fun i _ => ?_⟩
  rw [hrun.testBit, Flip.hits]
  congr 1
  rw [walking_number, walking_number]
  exact propext ⟨fun h => by omega, fun h => by omega⟩

/-- A run of whole bytes is flipped by the stage that flips as many. -/
theorem Run.whole (hlength : old.length = new.length) (hsize : 8 * old.length ≤ 32)
    (hrun : Run (xor_val old new).toNat s bits) (hbits : bits = 8 ∨ bits = 16 ∨ bits = 32) (haligned : s % 8 = 0) :
    ∃ f, Flip.Tried old.length f ∧ f.apply old = new := by
  have hend := hrun.end_inside hlength (by omega)
  have htried : Flip.Tried old.length (.whole (bits / 8) (s / 8)) := ⟨by omega, by omega⟩
  refine ⟨_, htried, (apply_eq_iff hlength hsize htried).mpr fun i _ => ?_⟩
  rw [hrun.testBit, Flip.hits]
  congr 1
  exact propext ⟨fun h => by omega, fun h => by omega⟩

/-- A run that is recognised is flipped unless it straddles. -/
theorem flip_of_recognised (hlength : old.length = new.length) (hsize : 8 * old.length ≤ 32) (hrecognised : Recognised s bits)
    (hrun : Run (xor_val old new).toNat s bits) (hstraddles : ¬ Straddles (xor_val old new)) :
    ∃ f, Flip.Tried old.length f ∧ f.apply old = new := by
  have hwithin : bits = 2 ∨ bits = 4 → s % 8 + bits ≤ 8 :=
    fun hbits => Nat.le_of_not_lt fun hlt => hstraddles ⟨s, bits, hbits, hlt, hrun⟩
  rcases hrecognised with hbits | hbits | hbits | ⟨haligned, hbits⟩
  · exact hrun.walking hlength hsize (Or.inl hbits) (by omega)
  · exact hrun.walking hlength hsize (Or.inr (Or.inl hbits)) (hwithin (Or.inl hbits))
  · exact hrun.walking hlength hsize (Or.inr (Or.inr hbits)) (hwithin (Or.inr hbits))
  · exact hrun.whole hlength hsize hbits haligned

/-- No flip hits the bits of a run that straddles, and no others. -/
theorem not_flip_of_straddles (hlength : old.length = new.length) (hsize : 8 * old.length ≤ 32)
    (hstraddles : Straddles (xor_val old new)) (hf : f.Tried old.length) : f.apply old ≠ new := by
  obtain ⟨s, bits, hbits, hcross, hrun⟩ := hstraddles
  have hend := hrun.end_le (by omega)
  intro happly
  have hhits : ∀ i < 32, f.hits i = decide (s ≤ i ∧ i < s + bits) := fun i hi =>
    ((apply_eq_iff hlength hsize hf).mp happly i hi).symm.trans (hrun.testBit i)
  -- The last bit of a byte and the first one of the next byte are in the run.
  have hlast := hhits (8 * (s / 8) + 7) (by omega)
  have hnext := hhits (8 * (s / 8) + 8) (by omega)
  rw [decide_eq_true (by omega)] at hlast hnext
  cases f with
  | walking w p =>
    have hw : w ≤ 4 := by rcases hf.1 with rfl | rfl | rfl <;> decide
    have hstart := (of_decide_eq_true hlast).1
    have hstop := (of_decide_eq_true hnext).2
    rw [walking_number] at hstart hstop
    omega
  | whole n j =>
    have hfirst := hhits (8 * (s / 8)) (by omega)
    rw [decide_eq_false (by omega)] at hfirst
    have hbyte := of_decide_eq_true hlast
    have hnot := of_decide_eq_false hfirst
    omega

/-- What `could_be_bitflip` takes for a bit flip is one that the stages make, if and only if it
is no run of two or four bits in more than one byte. `FLIP_BIT` begins at the high bit of each
byte, so such a run is never flipped. -/
theorem bitflip_is_tried_iff (hlength : old.length = new.length) (hsize : old.length = 1 ∨ old.length = 2 ∨ old.length = 4)
    (hne : old ≠ new) :
    (could_be_bitflip (xor_val old new) = true → ∃ f, Flip.Tried old.length f ∧ f.apply old = new) ↔
      ¬ Straddles (xor_val old new) := by
  have hbound : 8 * old.length ≤ 32 := by omega
  have hzero := xor_val_ne_zero hlength hbound hne
  rw [could_be_bitflip_iff hzero]
  constructor
  · intro h hstraddles
    have hcopy := hstraddles
    obtain ⟨s, bits, hbits, _, hrun⟩ := hcopy
    have hrecognised : Recognised s bits := hbits.elim (fun h => Or.inr (Or.inl h)) fun h => Or.inr (Or.inr (Or.inl h))
    obtain ⟨f, hf, happly⟩ := h ⟨s, bits, hrecognised, hrun⟩
    exact not_flip_of_straddles hlength hbound hstraddles hf happly
  · exact fun hstraddles ⟨s, bits, hrecognised, hrun⟩ => flip_of_recognised hlength hbound hrecognised hrun hstraddles

/-- Two bits of one byte are flipped together. -/
theorem two_bits_of_a_byte : (could_be_bitflip (xor_val [0, 0] [3, 0]) = true →
    ∃ f, Flip.Tried [(0 : UInt8), 0].length f ∧ f.apply [0, 0] = [3, 0]) ↔ ¬ Straddles (xor_val [0, 0] [3, 0]) :=
  bitflip_is_tried_iff rfl (by decide) (by decide)

/-- The last bit of a byte and the first one of the next byte, as a word counts them, are
taken for a bit flip, and no stage flips both. -/
theorem two_bits_of_two_bytes : could_be_bitflip (xor_val [0, 0] [0x80, 0x01]) = true ∧
    ¬ ∃ f, Flip.Tried 2 f ∧ f.apply [0, 0] = [0x80, 0x01] := by
  have hstraddles : Straddles (xor_val [0, 0] [0x80, 0x01]) := ⟨7, 2, Or.inl rfl, by decide, rfl⟩
  refine ⟨rfl, ?_⟩
  rintro ⟨f, hf, happly⟩
  refine absurd happly (not_flip_of_straddles rfl ?_ hstraddles hf)
  decide

end soundness

end aflnet
