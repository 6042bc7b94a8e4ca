import Mathlib.Data.Nat.Basic

/-! Machine words and the bytes that they are stored in, the least significant one first. -/

namespace Words

variable {w : Nat}

/-- The word in these bytes, of which the first one is the lowest. Bytes beyond the width do not
count. -/
def load (w : Nat) : List UInt8 → BitVec w
  | [] => 0
  | byte :: bytes => byte.toBitVec.setWidth w ||| load w bytes <<< 8

/-- The first `n` bytes of a word, from the lowest one on, as they are in memory. -/
def store (x : BitVec w) : Nat → List UInt8
  | 0 => []
  | n + 1 => ⟨x.setWidth 8⟩ :: store (x >>> 8) n

variable {byte : UInt8} {bytes a b : List UInt8} {i n : Nat}

/-- A bit of a word belongs to the lowest byte or to the word of the other bytes. -/
theorem getLsbD_load_cons (hi : i < w) : (load w (byte :: bytes)).getLsbD i =
    if i < 8 then byte.toBitVec.getLsbD i else (load w bytes).getLsbD (i - 8) := by
  rw [load, BitVec.getLsbD_or, BitVec.getLsbD_setWidth, BitVec.getLsbD_shiftLeft]
  by_cases h : i < 8
  · simp [h, hi]
  · have hhigh : byte.toBitVec.getLsbD i = false := BitVec.getLsbD_of_ge _ _ (Nat.le_of_not_lt h)
    simp [h, hi, hhigh]

/-- An operation on words that is one on each bit is one on each byte. -/
theorem load_zipWith {f : Bool → Bool → Bool} (word : BitVec w → BitVec w → BitVec w) {op : UInt8 → UInt8 → UInt8}
    (hf : f false false = false) (hword : ∀ x y i, i < w → (word x y).getLsbD i = f (x.getLsbD i) (y.getLsbD i))
    (hop : ∀ x y i, i < 8 → (op x y).toBitVec.getLsbD i = f (x.toBitVec.getLsbD i) (y.toBitVec.getLsbD i))
    (hlength : a.length = b.length) : word (load w a) (load w b) = load w (a.zipWith op b) := by
  have hbits : ∀ i, i < w → (load w (a.zipWith op b)).getLsbD i = f ((load w a).getLsbD i) ((load w b).getLsbD i) := by
    induction a generalizing b with
    | nil =>
      obtain rfl := List.eq_nil_of_length_eq_zero hlength.symm
      intro i _
      simpa [load] using hf.symm
    | cons x a ih =>
      obtain ⟨y, b, rfl⟩ := List.exists_cons_of_length_eq_add_one hlength.symm
      intro i hi
      rw [List.zipWith_cons_cons, getLsbD_load_cons hi, getLsbD_load_cons hi, getLsbD_load_cons hi]
      split
      · rename_i hlow
        exact hop x y i hlow
      · exact ih (Nat.succ.inj hlength) (i - 8) (Nat.lt_of_le_of_lt (Nat.sub_le i 8) hi)
  exact BitVec.eq_of_getLsbD_eq fun i hi => by rw [hword _ _ _ hi, hbits i hi]

theorem load_and (hlength : a.length = b.length) : load w a &&& load w b = load w (a.zipWith (· &&& ·) b) :=
  load_zipWith (f := and) _ rfl (fun _ _ _ _ => BitVec.getLsbD_and) (fun _ _ _ _ => BitVec.getLsbD_and) hlength

/-- The bits of one word that the other does not have, byte by byte. -/
theorem load_and_not (hlength : a.length = b.length) :
    load w a &&& ~~~ load w b = load w (a.zipWith (fun x y => x &&& ~~~ y) b) := by
  refine load_zipWith (f := fun x y => x && !y) (fun x y => x &&& ~~~ y) rfl (fun x y i hi => ?_) (fun x y i hi => ?_) hlength
  · simp [hi]
  · simp [hi]

/-- The bits of a word are those of its bytes. -/
theorem getLsbD_load (hi : i < w) : (load w bytes).getLsbD i = (bytes.getD (i / 8) 0).toBitVec.getLsbD (i % 8) := by
  induction bytes generalizing i with
  | nil => simp [load]
  | cons byte bytes ih =>
    rw [getLsbD_load_cons hi]
    split
    · rename_i hlow
      rw [Nat.div_eq_of_lt hlow, Nat.mod_eq_of_lt hlow, List.getD_cons_zero]
    · rename_i hhigh
      have hdiv : i / 8 = (i - 8) / 8 + 1 := by omega
      rw [ih (by omega), hdiv, List.getD_cons_succ, Nat.mod_eq_sub_mod (Nat.le_of_not_lt hhigh)]

/-- There is nothing above the last byte. -/
theorem getLsbD_load_of_ge (hi : 8 * bytes.length ≤ i) : (load w bytes).getLsbD i = false := by
  induction bytes generalizing i with
  | nil => exact BitVec.getLsbD_zero
  | cons byte bytes ih =>
    rw [List.length_cons] at hi
    by_cases hw : i < w
    · rw [getLsbD_load_cons hw, if_neg (by omega)]
      exact ih (by omega)
    · exact BitVec.getLsbD_of_ge _ _ (Nat.le_of_not_lt hw)

theorem load_cons_shift (hw : 8 * (byte :: bytes).length ≤ w) : load w (byte :: bytes) >>> 8 = load w bytes := by
  rw [List.length_cons] at hw
  apply BitVec.eq_of_getLsbD_eq
  intro i hi
  rw [BitVec.getLsbD_ushiftRight]
  by_cases hin : 8 + i < w
  · rw [getLsbD_load_cons hin, if_neg (by omega), Nat.add_sub_cancel_left]
  · rw [BitVec.getLsbD_of_ge _ _ (Nat.le_of_not_lt hin), getLsbD_load_of_ge (by omega)]

/-- The lowest byte of a word is its first one in memory, as the words are little endian. -/
theorem load_cons_setWidth (hw : 8 ≤ w) : (load w (byte :: bytes)).setWidth 8 = byte.toBitVec := by
  apply BitVec.eq_of_getLsbD_eq
  intro i hi
  rw [BitVec.getLsbD_setWidth, getLsbD_load_cons (Nat.lt_of_lt_of_le hi hw)]
  simp [hi]

/-- The bytes of a word that was loaded. -/
theorem store_load (hlength : bytes.length = n) (hw : 8 * n ≤ w) : store (load w bytes) n = bytes := by
  subst hlength
  induction bytes with
  | nil => rfl
  | cons byte bytes ih =>
    have hbyte : 8 * bytes.length + 8 ≤ w := hw
    rw [List.length_cons, store, load_cons_setWidth (by omega), load_cons_shift hw, ih (by omega)]

/-- Words that hold all of their bytes are equal only if the bytes are. -/
theorem load_injective (hw : 8 * a.length ≤ w) (hlength : a.length = b.length) (h : load w a = load w b) : a = b := by
  rw [← store_load rfl hw, h, store_load hlength.symm hw]

theorem load_replicate_zero (w n : Nat) : load w (List.replicate n 0) = 0 := by
  induction n with
  | zero => rfl
  | succ n ih => simp [List.replicate_succ, load, ih]

/-- A word is 0 if and only if each of its bytes is. -/
theorem load_eq_zero_iff (hw : 8 * bytes.length ≤ w) : load w bytes = 0 ↔ ∀ byte ∈ bytes, byte = 0 := by
  constructor
  · intro h
    rw [← load_replicate_zero w bytes.length] at h
    exact List.eq_replicate_iff.mp (load_injective hw (by simp) h) |>.2
  · intro h
    rw [List.eq_replicate_iff.mpr ⟨rfl, h⟩, load_replicate_zero]

section store

variable {x y : BitVec w} {m k size : Nat}

@[simp] theorem length_store (x : BitVec w) (n : Nat) : (store x n).length = n := by
  induction n generalizing x with
  | zero => rfl
  | succ n ih => rw [store, List.length_cons, ih]

/-- The bytes of a word are decided by as many of its bits. -/
theorem store_eq_iff : store x n = store y n ↔ ∀ k < 8 * n, x.getLsbD k = y.getLsbD k := by
  induction n generalizing x y with
  | zero => simp [store]
  | succ n ih =>
    have hbyte : (⟨x.setWidth 8⟩ : UInt8) = ⟨y.setWidth 8⟩ ↔ ∀ k < 8, x.getLsbD k = y.getLsbD k := by
      rw [← UInt8.toBitVec_inj]
      refine ⟨fun h k hk => ?_, fun h => BitVec.eq_of_getLsbD_eq fun k hk => ?_⟩
      · simpa [hk] using congrArg (fun z => z.getLsbD k) h
      · simpa [hk] using h k hk
    simp only [store, List.cons.injEq, hbyte, ih, BitVec.getLsbD_ushiftRight]
    refine ⟨fun ⟨hlow, hhigh⟩ k hk => ?_, fun h => ⟨fun k hk => h k (by omega), fun k hk => h (8 + k) (by omega)⟩⟩
    rcases Nat.lt_or_ge k 8 with hlt | hge
    · exact hlow k hlt
    · simpa [Nat.add_sub_cancel' hge] using hhigh (k - 8) (by omega)

theorem store_append (x : BitVec w) (m n : Nat) : store x (m + n) = store x m ++ store (x >>> (8 * m)) n := by
  induction m generalizing x with
  | zero => simp [store]
  | succ m ih => rw [Nat.add_right_comm, store, ih, store, ← BitVec.shiftRight_add, List.cons_append, Nat.add_comm 8, Nat.mul_succ]

/-- Each stored byte is the word shifted by eight times its position. -/
theorem getElem?_store (x : BitVec w) (hm : m < n) : (store x n)[m]? = some ⟨(x >>> (8 * m)).setWidth 8⟩ := by
  obtain ⟨k, rfl⟩ : ∃ k, n = m + (k + 1) := ⟨n - m - 1, by omega⟩
  rw [store_append, List.getElem?_append_right (Nat.le_of_eq (length_store x m)), length_store, Nat.sub_self, store]
  rfl

/-- A word with the bytes the other way round. -/
theorem store_reverse (h : ∀ k < 8 * n, y.getLsbD k = x.getLsbD (8 * (n - 1 - k / 8) + k % 8)) :
    store y n = (store x n).reverse := by
  refine List.ext_getElem? fun m => ?_
  rcases Nat.lt_or_ge m n with hm | hm
  · rw [List.getElem?_reverse (by simpa using hm), length_store, getElem?_store y hm, getElem?_store x (by omega)]
    refine congrArg (fun byte : BitVec 8 => some (UInt8.ofBitVec byte)) (BitVec.eq_of_getLsbD_eq fun k hk => ?_)
    have hbit := h (8 * m + k) (by omega)
    rw [Nat.mul_add_div (by decide), Nat.div_eq_of_lt hk, Nat.mul_add_mod, Nat.mod_eq_of_lt hk, Nat.add_zero] at hbit
    simpa [hk] using hbit
  · rw [List.getElem?_eq_none (by simpa using hm), List.getElem?_eq_none (by simpa using hm)]

/-- The first bytes of a store are a store of fewer bytes. -/
theorem take_store (x : BitVec w) (h : m ≤ n) : (store x n).take m = store x m := by
  rw [← Nat.add_sub_cancel' h, store_append, List.take_left' (length_store x m)]

theorem drop_store (x : BitVec w) (h : m ≤ n) : (store x n).drop m = store (x >>> (8 * m)) (n - m) := by
  rw [← Nat.add_sub_cancel' h, store_append, List.drop_left' (length_store x m), Nat.add_sub_cancel_left]

/-- The bits of a word of which some bytes were stored. -/
theorem getLsbD_load_store (x : BitVec w) (hk : k < w) : (load w (store x n)).getLsbD k = (decide (k < 8 * n) && x.getLsbD k) := by
  induction n generalizing x k with
  | zero => simp [store, load]
  | succ n ih =>
    rw [store, getLsbD_load_cons hk]
    split
    · rename_i hlow
      have hlt : k < 8 * (n + 1) := by omega
      simp [hlow, hlt]
    · rename_i hhigh
      rw [ih _ (by omega), BitVec.getLsbD_ushiftRight, Nat.add_sub_cancel' (Nat.le_of_not_lt hhigh)]
      congr 1
      exact decide_eq_decide.mpr (by omega)

end store

/-- The order of the bytes of a word in memory. The machine is little-endian, and the swapped
order is that of the network. -/
inductive Order where
  | le | be
  deriving DecidableEq, Repr

/-- The bytes of a word in memory, from those in the order of their weight. Both orders undo
themselves. -/
def Order.arrange : Order → List UInt8 → List UInt8
  | le, bytes => bytes
  | be, bytes => bytes.reverse

/-- Arranging twice gives the bytes back, in both orders. -/
@[simp] theorem Order.arrange_arrange (order : Order) (bytes : List UInt8) : order.arrange (order.arrange bytes) = bytes := by
  cases order with
  | le => rfl
  | be => exact List.reverse_reverse bytes

/-- The word of `size` bytes at position `i` of a buffer. -/
def fetch (w : Nat) (order : Order) (buf : List UInt8) (i size : Nat) : BitVec w :=
  load w (order.arrange ((buf.drop i).take size))

/-- A buffer with the first `size` bytes of a word at position `i`. -/
def put (order : Order) (buf : List UInt8) (i size : Nat) (x : BitVec w) : List UInt8 :=
  buf.take i ++ order.arrange (store x size) ++ buf.drop (i + size)

section put

variable {x y z : BitVec w} {order : Order} {size : Nat}

/-- A word read from the bytes of a stored one consists of the bytes at that place. -/
theorem fetch_store (x : BitVec w) (order : Order) (h : i + size ≤ n) :
    fetch w order (store x n) i size = load w (order.arrange (store (x >>> (8 * i)) size)) := by
  rw [fetch, drop_store x (by omega), take_store _ (by omega)]

/-- What is put into the bytes of a word is a word that has the other bits of the first one. -/
theorem put_store (h : i + size ≤ n) (hsame : ∀ k < 8 * n, ¬ (8 * i ≤ k ∧ k < 8 * (i + size)) → y.getLsbD k = x.getLsbD k)
    (hput : store (y >>> (8 * i)) size = order.arrange (store z size)) : put order (store x n) i size z = store y n := by
  have hsplit : i + (size + (n - (i + size))) = n := by omega
  have hparts : store y i ++ (store (y >>> (8 * i)) size ++ store (y >>> (8 * (i + size))) (n - (i + size))) = store y n := by
    rw [Nat.mul_add, BitVec.shiftRight_add, ← store_append, ← store_append, hsplit]
  have hbefore : store x i = store y i := store_eq_iff.mpr fun k hk => (hsame k (by omega) (by omega)).symm
  have hafter : store (x >>> (8 * (i + size))) (n - (i + size)) = store (y >>> (8 * (i + size))) (n - (i + size)) := by
    refine store_eq_iff.mpr fun k hk => ?_
    rw [BitVec.getLsbD_ushiftRight, BitVec.getLsbD_ushiftRight]
    exact (hsame _ (by omega) (by omega)).symm
  rw [put, take_store x (by omega), drop_store x h, hbefore, ← hput, hafter, List.append_assoc, hparts]

end put

end Words
