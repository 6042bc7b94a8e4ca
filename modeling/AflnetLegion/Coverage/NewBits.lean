import AflnetLegion.Lib.Words

open Words (load store)

namespace aflnet

/-- A virgin map, whether it is `virgin_bits`, and whether that one has changed since it was
last written to its file. In C the map is recognized by its address. -/
structure Coverage where
  virgin_map : List UInt8
  is_virgin_bits : Bool
  bitmap_changed : Bool
  deriving DecidableEq, Repr

/-- Whether a non-zero byte of `cur` is pristine in `vir`. The source tests the bytes of a word
one after the other in a single condition. -/
def has_new_byte (cur vir : List UInt8) : Bool := (cur.zip vir).any fun bytes => bytes.1 ≠ 0 ∧ bytes.2 = 0xff

/-- What a word of the trace makes of `ret` and of the word of the virgin map. Once 2 has been
found the bytes are no longer looked at, but the virgin map is still changed. -/
def check_word (word_size : Nat) (cur vir : List UInt8) (ret : UInt8) : UInt8 × List UInt8 :=
  let current := load (8 * word_size) cur
  let virgin := load (8 * word_size) vir
  if current ≠ 0 ∧ current &&& virgin ≠ 0 then
    (if ret < 2 then if has_new_byte cur vir then 2 else 1 else ret, store (virgin &&& ~~~ current) word_size)
  else (ret, vir)

/-- The loop over the words, of which `i` are left. The value found so far is passed on, as it
decides how closely the next words are looked at. -/
def check_words (word_size : Nat) : Nat → List UInt8 → List UInt8 → UInt8 → UInt8 × List UInt8
  | 0, _, virgin, ret => (ret, virgin)
  | i + 1, current, virgin, ret =>
    let word := check_word word_size (current.take word_size) (virgin.take word_size) ret
    let rest := check_words word_size i (current.drop word_size) (virgin.drop word_size) word.1
    (rest.1, word.2 ++ rest.2)

/-- The maps are as long as the trace. A word has 8 bytes with `WORD_SIZE_64`, and 4 without.
Only the map of the queue, `virgin_bits`, has its change noted in `bitmap_changed`. -/
def has_new_bits (word_size : Nat) (trace_bits : List UInt8) (c : Coverage) : UInt8 × Coverage :=
  let checked := check_words word_size (trace_bits.length / word_size) trace_bits c.virgin_map 0
  (checked.1, { c with
    virgin_map := checked.2
    bitmap_changed := if checked.1 ≠ 0 ∧ c.is_virgin_bits then true else c.bitmap_changed })

/-- Whether a byte of `cur` has a bit that is still set in `vir`. -/
def has_new_bit (cur vir : List UInt8) : Bool := (cur.zip vir).any fun bytes => bytes.1 &&& bytes.2 ≠ 0

/-- The value for the two kinds of finds. -/
def finds (new_byte new_bit : Bool) : UInt8 := if new_byte then 2 else if new_bit then 1 else 0

/-- The virgin map without the bits of the trace. -/
def clear_bits (cur vir : List UInt8) : List UInt8 := vir.zipWith (fun v c => v &&& ~~~ c) cur

section words

variable {cur vir a b c d trace virgin : List UInt8} {word_size i : Nat} {x y : Bool}

/-- Maps in two parts, each of which is as long as the part of the trace above it. -/
theorem has_new_byte_append (hlength : a.length = b.length) :
    has_new_byte (a ++ c) (b ++ d) = (has_new_byte a b || has_new_byte c d) := by
  rw [has_new_byte, List.zip_append hlength, List.any_append, has_new_byte, has_new_byte]

theorem has_new_bit_append (hlength : a.length = b.length) :
    has_new_bit (a ++ c) (b ++ d) = (has_new_bit a b || has_new_bit c d) := by
  rw [has_new_bit, List.zip_append hlength, List.any_append, has_new_bit, has_new_bit]

theorem clear_bits_append (hlength : a.length = b.length) :
    clear_bits (a ++ c) (b ++ d) = clear_bits a b ++ clear_bits c d := List.zipWith_append hlength.symm

theorem length_clear_bits (hlength : cur.length = vir.length) : (clear_bits cur vir).length = vir.length := by
  simp [clear_bits, hlength]

/-- A byte that is pristine has a new bit. -/
theorem has_new_bit_of_byte (h : has_new_byte cur vir = true) : has_new_bit cur vir = true := by
  obtain ⟨bytes, hmem, hbyte⟩ := List.any_eq_true.mp h
  obtain ⟨hcur, hvir⟩ := of_decide_eq_true hbyte
  refine List.any_eq_true.mpr ⟨bytes, hmem, decide_eq_true ?_⟩
  rw [hvir]
  exact fun hzero => hcur (UInt8.and_neg_one.symm.trans hzero)

/-- A byte that has no bit in common with the trace is not changed by clearing. -/
theorem byte_clear_of_and_eq_zero {c v : UInt8} (h : c &&& v = 0) : v &&& ~~~ c = v := by
  apply UInt8.toBitVec_inj.mp
  apply BitVec.eq_of_getLsbD_eq
  intro i hi
  have hbit := congrArg (fun byte : UInt8 => byte.toBitVec.getLsbD i) h
  simp only [UInt8.toBitVec_and, BitVec.getLsbD_and, UInt8.toBitVec_ofNat, BitVec.getLsbD_zero] at hbit
  cases hc : c.toBitVec.getLsbD i <;> simp_all

/-- What was cleared has no bit in common with the trace. -/
theorem byte_and_clear (c v : UInt8) : c &&& (v &&& ~~~ c) = 0 := by
  rw [UInt8.and_comm v, ← UInt8.and_assoc]
  simp

/-- There is no new bit if each byte of the map has none of the bits of its byte in the trace.
-/
theorem has_new_bit_eq_false_iff : has_new_bit cur vir = false ↔ ∀ bytes ∈ cur.zip vir, bytes.1 &&& bytes.2 = 0 := by
  simp [has_new_bit]

theorem has_new_byte_of_no_bit (h : has_new_bit cur vir = false) : has_new_byte cur vir = false :=
  Bool.eq_false_iff.mpr fun hbyte => Bool.eq_false_iff.mp h (has_new_bit_of_byte hbyte)

/-- Without a new bit nothing is cleared. -/
theorem clear_bits_of_no_new_bit (hlength : cur.length = vir.length) (h : has_new_bit cur vir = false) : clear_bits cur vir = vir := by
  rw [has_new_bit_eq_false_iff] at h
  refine List.ext_getElem (length_clear_bits hlength) fun i hi hi' => ?_
  have hin : i < (cur.zip vir).length := by simpa [hlength] using hi'
  have hbytes := h _ (List.getElem_mem hin)
  rw [List.getElem_zip] at hbytes
  simpa [clear_bits] using byte_clear_of_and_eq_zero hbytes

/-- What is cleared is not found again. -/
theorem has_new_bit_clear_bits (cur vir : List UInt8) : has_new_bit cur (clear_bits cur vir) = false := by
  rw [has_new_bit_eq_false_iff]
  intro bytes hmem
  obtain ⟨i, hi, rfl⟩ := List.getElem_of_mem hmem
  simp [clear_bits, byte_and_clear]

/-- A word is passed over exactly if none of its bytes has a new bit. -/
theorem word_has_new_bit (hcur : cur.length = word_size) (hvir : vir.length = word_size) :
    (load (8 * word_size) cur ≠ 0 ∧ load (8 * word_size) cur &&& load (8 * word_size) vir ≠ 0) ↔ has_new_bit cur vir = true := by
  have hlength : cur.length = vir.length := hcur.trans hvir.symm
  have hand : load (8 * word_size) cur &&& load (8 * word_size) vir = 0 ↔ has_new_bit cur vir = false := by
    rw [Words.load_and hlength, Words.load_eq_zero_iff (by simp [hcur, hvir]), has_new_bit_eq_false_iff,
      ← List.map_uncurry_zip_eq_zipWith]
    exact List.forall_mem_map
  have hnonzero : load (8 * word_size) cur &&& load (8 * word_size) vir ≠ 0 → load (8 * word_size) cur ≠ 0 := by
    intro h hzero
    exact h (by simp [hzero])
  rw [and_iff_right_of_imp hnonzero, ne_eq, hand, Bool.not_eq_false]

/-- A word adds its own finds and is cleared. -/
theorem check_word_finds (hcur : cur.length = word_size) (hvir : vir.length = word_size) :
    check_word word_size cur vir (finds x y) =
      (finds (x || has_new_byte cur vir) (y || has_new_bit cur vir), clear_bits cur vir) := by
  have hlength : vir.length = cur.length := hvir.trans hcur.symm
  rw [check_word]
  simp only [word_has_new_bit hcur hvir]
  split
  · rename_i hbit
    have hstored : store (load (8 * word_size) vir &&& ~~~ load (8 * word_size) cur) word_size = clear_bits cur vir := by
      have hlast : (clear_bits cur vir).length = word_size := (length_clear_bits hlength.symm).trans hvir
      rw [Words.load_and_not hlength]
      exact Words.store_load hlast (Nat.le_refl _)
    rw [hstored, hbit]
    cases x <;> cases y <;> cases has_new_byte cur vir <;> rfl
  · rename_i hbit
    have hnone : has_new_bit cur vir = false := Bool.eq_false_iff.mpr hbit
    rw [clear_bits_of_no_new_bit hlength.symm hnone, hnone, has_new_byte_of_no_bit hnone, Bool.or_false, Bool.or_false]

/-- The words together find what their bytes do. -/
theorem check_words_finds (htrace : trace.length = word_size * i) (hvirgin : virgin.length = word_size * i) :
    check_words word_size i trace virgin (finds x y) =
      (finds (x || has_new_byte trace virgin) (y || has_new_bit trace virgin), clear_bits trace virgin) := by
  induction i generalizing trace virgin x y with
  | zero =>
    obtain rfl := List.eq_nil_of_length_eq_zero htrace
    obtain rfl := List.eq_nil_of_length_eq_zero hvirgin
    simp [check_words, has_new_byte, has_new_bit, clear_bits]
  | succ i ih =>
    rw [Nat.mul_succ] at htrace hvirgin
    have hcur : (trace.take word_size).length = word_size := by simp [htrace]
    have hvir : (virgin.take word_size).length = word_size := by simp [hvirgin]
    have hwords : (trace.take word_size).length = (virgin.take word_size).length := hcur.trans hvir.symm
    have htrace' : (trace.drop word_size).length = word_size * i := by simp [htrace]
    have hvirgin' : (virgin.drop word_size).length = word_size * i := by simp [hvirgin]
    simp only [check_words, check_word_finds hcur hvir, ih htrace' hvirgin']
    rw [Bool.or_assoc, Bool.or_assoc, ← has_new_byte_append hwords, ← has_new_bit_append hwords, ← clear_bits_append hwords,
      List.take_append_drop, List.take_append_drop]

end words

section has_new_bits

variable {word_size : Nat} {trace_bits : List UInt8} {c : Coverage}

/-- The loop over the words does what one over the bytes would, for any word size that divides
the length. -/
theorem has_new_bits_eq (hwords : word_size ∣ trace_bits.length) (hlength : c.virgin_map.length = trace_bits.length) :
    has_new_bits word_size trace_bits c =
      (finds (has_new_byte trace_bits c.virgin_map) (has_new_bit trace_bits c.virgin_map), { c with
        virgin_map := clear_bits trace_bits c.virgin_map
        bitmap_changed := c.bitmap_changed || c.is_virgin_bits && has_new_bit trace_bits c.virgin_map }) := by
  have htrace : trace_bits.length = word_size * (trace_bits.length / word_size) := (Nat.mul_div_cancel' hwords).symm
  have hchecked := check_words_finds (x := false) (y := false) htrace (hlength.trans htrace)
  rw [Bool.false_or, Bool.false_or] at hchecked
  have hzero : finds false false = 0 := rfl
  rw [has_new_bits, ← hzero, hchecked]
  cases hbit : has_new_bit trace_bits c.virgin_map with
  | false => simp [has_new_byte_of_no_bit hbit, hzero]
  | true =>
    have hfound : finds (has_new_byte trace_bits c.virgin_map) true ≠ 0 := by
      cases has_new_byte trace_bits c.virgin_map <;> decide
    cases hvirgin : c.is_virgin_bits <;> simp [hfound, hzero]

/-- A map that has nothing new stays as it is. -/
theorem has_new_bits_of_no_bit (hwords : word_size ∣ trace_bits.length) (hlength : c.virgin_map.length = trace_bits.length)
    (h : has_new_bit trace_bits c.virgin_map = false) : has_new_bits word_size trace_bits c = (0, c) := by
  rw [has_new_bits_eq hwords hlength, h, has_new_byte_of_no_bit h, clear_bits_of_no_new_bit hlength.symm h]
  simp [finds]

/-- The value says which finds there are among the bytes, the bits of the trace are
cleared, and a second call finds nothing and changes nothing. -/
theorem has_new_bits_bytewise (hwords : word_size ∣ trace_bits.length) (hlength : c.virgin_map.length = trace_bits.length) :
    (has_new_bits word_size trace_bits c).1 = finds (has_new_byte trace_bits c.virgin_map) (has_new_bit trace_bits c.virgin_map) ∧
      (has_new_bits word_size trace_bits c).2.virgin_map = clear_bits trace_bits c.virgin_map ∧
      has_new_bits word_size trace_bits (has_new_bits word_size trace_bits c).2 = (0, (has_new_bits word_size trace_bits c).2) := by
  rw [has_new_bits_eq hwords hlength]
  refine ⟨rfl, rfl, has_new_bits_of_no_bit hwords ?_ (has_new_bit_clear_bits trace_bits c.virgin_map)⟩
  rw [length_clear_bits hlength.symm, hlength]

/-- A map of two words. The first one is pristine, but the trace has nothing in it, and in the second one a byte is not. -/
def two_words : Coverage where
  virgin_map := List.replicate 8 255 ++ [255, 254, 255, 255, 255, 255, 255, 255]
  is_virgin_bits := true
  bitmap_changed := false

/-- A trace whose only hit is in the second word. -/
def second_word : List UInt8 := List.replicate 8 0 ++ [0, 3, 0, 0, 0, 0, 0, 0]

theorem has_new_bits_of_two_words :
    (has_new_bits 8 second_word two_words).1 = 1 ∧
      (has_new_bits 8 second_word two_words).2.virgin_map = List.replicate 8 255 ++ [255, 252, 255, 255, 255, 255, 255, 255] ∧
      has_new_bits 8 second_word (has_new_bits 8 second_word two_words).2 = (0, (has_new_bits 8 second_word two_words).2) :=
  has_new_bits_bytewise (by decide) rfl

end has_new_bits

end aflnet
