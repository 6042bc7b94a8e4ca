import AflnetLegion.Messages.Construct

namespace aflnet

/-- The loop that leaves out a state that has come twice already; `earlier` and
`previous` are the two states before the current one. -/
def trim_loops : Option UInt32 → Option UInt32 → List UInt32 → List UInt32
  | _, _, [] => []
  | earlier, previous, state :: state_sequence =>
    if previous = some state ∧ earlier = some state then trim_loops previous (some state) state_sequence
    else state :: trim_loops previous (some state) state_sequence

/-- The sequence without the third and later of equal states in a row. The two that are kept
show that there was a repetition. -/
def trimmed_state_sequence (state_sequence : List UInt32) : List UInt32 := trim_loops none none state_sequence

/-- `ROL64(x, r)`. -/
def ROL64 (x r : UInt64) : UInt64 := (x <<< r) ||| (x >>> (64 - r))

/-- The 64-bit words that two states each make up on a little-endian machine. A state that is
left over makes no word. -/
def read_words : Nat → List UInt32 → List UInt64
  | words + 1, low :: high :: key => (low.toUInt64 + (high.toUInt64 <<< 32)) :: read_words words key
  | _, _ => []

/-- What is mixed: the length in bytes and the words that are read. The length is divided by 8,
so four bytes that are left over are not read. -/
def hash_input (key : List UInt32) (len : UInt32) : UInt32 × List UInt64 := (len, read_words (len >>> 3).toNat key)

/-- The mixing of one word. Each step can be undone, so words that differ give different
results. -/
def mix_word (h1 k1 : UInt64) : UInt64 :=
  let k1 := k1 * 0x87c37b91114253d5
  let k1 := ROL64 k1 31
  let k1 := k1 * 0x4cf5ad432745937f
  let h1 := h1 ^^^ k1
  let h1 := ROL64 h1 27
  h1 * 5 + 0x52dce729

/-- `hash32`: the words are mixed one after the other, and the result is cut to 32 bits. -/
def hash32 (key : List UInt32) (len seed : UInt32) : UInt32 :=
  let input := hash_input key len
  let h1 := input.2.foldl mix_word (seed ^^^ input.1).toUInt64
  let h1 := h1 ^^^ (h1 >>> 33)
  let h1 := h1 * 0xff51afd7ed558ccd
  let h1 := h1 ^^^ (h1 >>> 33)
  let h1 := h1 * 0xc4ceb9fe1a85ec53
  let h1 := h1 ^^^ (h1 >>> 33)
  h1.toUInt32

/-- The size of an array of states, as a `u32`. -/
def state_bytes (state_sequence : List UInt32) : UInt32 := UInt32.ofNat (state_sequence.length * 4)

/-- The key of a sequence: the hash of what is left after trimming. -/
def hash_key (state_sequence : List UInt32) : UInt32 :=
  hash32 (trimmed_state_sequence state_sequence) (state_bytes (trimmed_state_sequence state_sequence)) 0

/-- Whether the key is new, and the keys with it. Two sequences with the same key are taken for
the same. -/
def is_state_sequence_interesting (khs_ipsm_paths : List UInt32) (state_sequence : List UInt32) : Bool × List UInt32 :=
  if hash_key state_sequence ∈ khs_ipsm_paths then (false, khs_ipsm_paths)
  else (true, hash_key state_sequence :: khs_ipsm_paths)

theorem trim_loops_sublist (earlier previous : Option UInt32) (state_sequence : List UInt32) :
    (trim_loops earlier previous state_sequence).Sublist state_sequence := by
  induction state_sequence generalizing earlier previous with
  | nil => exact List.Sublist.refl []
  | cons state state_sequence ih =>
    rw [trim_loops]
    split
    · exact (ih previous (some state)).cons state
    · exact (ih previous (some state)).cons_cons state

theorem length_trim_loops_le (earlier previous : Option UInt32) (state_sequence : List UInt32) :
    (trim_loops earlier previous state_sequence).length ≤ state_sequence.length :=
  (trim_loops_sublist earlier previous state_sequence).length_le

/-- A word determines its two states. -/
theorem word_inj {low high low' high' : UInt32}
    (h : low.toUInt64 + (high.toUInt64 <<< 32) = low'.toUInt64 + (high'.toUInt64 <<< 32)) : low = low' ∧ high = high' := by
  have hvalue : ∀ a b : UInt32, (a.toUInt64 + (b.toUInt64 <<< 32)).toNat = a.toNat + 4294967296 * b.toNat := by
    intro a b
    have ha : a.toNat < 4294967296 := a.toNat_lt
    have hb : b.toNat < 4294967296 := b.toNat_lt
    rw [UInt64.toNat_add, UInt64.toNat_shiftLeft, UInt32.toNat_toUInt64, UInt32.toNat_toUInt64, Nat.shiftLeft_eq]
    change (a.toNat + b.toNat * 4294967296 % 18446744073709551616) % 18446744073709551616 = _
    omega
  have heq := congrArg UInt64.toNat h
  rw [hvalue, hvalue] at heq
  have hlow : low.toNat < 4294967296 := low.toNat_lt
  have hlow' : low'.toNat < 4294967296 := low'.toNat_lt
  exact ⟨UInt32.toNat_inj.mp (by omega), UInt32.toNat_inj.mp (by omega)⟩

/-- Words are equal when the states they are made of are. -/
theorem read_words_eq_iff {words : Nat} {a b : List UInt32} (ha : 2 * words ≤ a.length) (hb : 2 * words ≤ b.length) :
    read_words words a = read_words words b ↔ a.take (2 * words) = b.take (2 * words) := by
  induction words generalizing a b with
  | zero => simp [read_words]
  | succ words ih =>
    match a, b, ha, hb with
    | low :: high :: a, low' :: high' :: b, ha, hb =>
      rw [List.length_cons, List.length_cons] at ha hb
      have hrest := ih (a := a) (b := b) (by omega) (by omega)
      rw [read_words, read_words, show 2 * (words + 1) = 2 * words + 1 + 1 by omega, List.take_succ_cons,
        List.take_succ_cons, List.take_succ_cons, List.take_succ_cons, List.cons.injEq, List.cons.injEq,
        List.cons.injEq, hrest]
      constructor
      · rintro ⟨hword, htake⟩
        obtain ⟨rfl, rfl⟩ := word_inj hword
        exact ⟨rfl, rfl, htake⟩
      · rintro ⟨rfl, rfl, htake⟩
        exact ⟨rfl, htake⟩
    | [], _, ha, _ => simp at ha
    | [_], _, ha, _ => simp at ha; omega
    | _ :: _ :: _, [], _, hb => simp at hb
    | _ :: _ :: _, [_], _, hb => simp at hb; omega

/-- The words of an array with an odd number of states leave out the last one. -/
theorem take_words (state_sequence : List UInt32) :
    state_sequence.take (2 * (state_sequence.length / 2)) =
      if state_sequence.length % 2 = 0 then state_sequence else state_sequence.dropLast := by
  split
  · exact List.take_of_length_le (by omega)
  · rw [List.dropLast_eq_take]
    congr 1
    omega

/-- The inputs of the hash differ for two arrays if and only if the arrays have
different lengths or differ within the words that are read. -/
theorem hash_input_ne_iff {a b : List UInt32} (ha : a.length * 4 ≤ MAX_ALLOC) (hb : b.length * 4 ≤ MAX_ALLOC)
    (hne : a ≠ b) : hash_input a (state_bytes a) ≠ hash_input b (state_bytes b) ↔
      a.length ≠ b.length ∨ a.length % 2 = 0 ∨ a.dropLast ≠ b.dropLast := by
  have hlimit : MAX_ALLOC = 1073741824 := rfl
  have hbytes : ∀ l : List UInt32, l.length * 4 ≤ MAX_ALLOC → (state_bytes l).toNat = l.length * 4 := by
    intro l hl
    rw [state_bytes, UInt32.toNat_ofNat']
    omega
  have hwords : ∀ l : List UInt32, l.length * 4 ≤ MAX_ALLOC → (state_bytes l >>> 3).toNat = l.length / 2 := by
    intro l hl
    rw [UInt32.toNat_shiftRight, hbytes l hl]
    change (l.length * 4) >>> 3 = _
    rw [Nat.shiftRight_eq_div_pow]
    omega
  have heq : hash_input a (state_bytes a) = hash_input b (state_bytes b) ↔
      a.length = b.length ∧ a.take (2 * (a.length / 2)) = b.take (2 * (b.length / 2)) := by
    rw [hash_input, hash_input, Prod.mk.injEq, hwords a ha, hwords b hb]
    constructor
    · rintro ⟨hlen, hread⟩
      have hsame := congrArg UInt32.toNat hlen
      rw [hbytes a ha, hbytes b hb] at hsame
      have hlength : a.length = b.length := by omega
      rw [hlength] at hread ⊢
      exact ⟨rfl, (read_words_eq_iff (by omega) (by omega)).mp hread⟩
    · rintro ⟨hlength, htake⟩
      refine ⟨by rw [state_bytes, state_bytes, hlength], ?_⟩
      rw [hlength] at htake ⊢
      exact (read_words_eq_iff (by omega) (by omega)).mpr htake
  rw [Ne, heq, take_words, take_words]
  by_cases hlength : a.length = b.length
  · rw [hlength]
    by_cases heven : b.length % 2 = 0
    · simp [heven, hne]
    · simp [heven]
  · simp [hlength]

/-- The novelty check sees that two trimmed state sequences differ if and only if they
have different lengths, an even length, or a difference before their last states. -/
theorem novelty_sees_difference_iff {a b : List UInt32} (ha : a.length * 4 ≤ MAX_ALLOC) (hb : b.length * 4 ≤ MAX_ALLOC)
    (hne : trimmed_state_sequence a ≠ trimmed_state_sequence b) :
    hash_input (trimmed_state_sequence a) (state_bytes (trimmed_state_sequence a)) ≠
        hash_input (trimmed_state_sequence b) (state_bytes (trimmed_state_sequence b)) ↔
      (trimmed_state_sequence a).length ≠ (trimmed_state_sequence b).length ∨
        (trimmed_state_sequence a).length % 2 = 0 ∨
        (trimmed_state_sequence a).dropLast ≠ (trimmed_state_sequence b).dropLast := by
  have hbound : ∀ l : List UInt32, l.length * 4 ≤ MAX_ALLOC → (trimmed_state_sequence l).length * 4 ≤ MAX_ALLOC :=
    fun l hl => Nat.le_trans (Nat.mul_le_mul_right 4 (length_trim_loops_le none none l)) hl
  exact hash_input_ne_iff (hbound a ha) (hbound b hb) hne

theorem novelty_of_longer_sequence : hash_input (trimmed_state_sequence [0, 220]) (state_bytes [0, 220]) ≠
    hash_input (trimmed_state_sequence [0, 220, 331]) (state_bytes [0, 220, 331]) :=
  (novelty_sees_difference_iff (a := [0, 220]) (b := [0, 220, 331]) (by decide) (by decide) (by decide)).mpr
    (Or.inl (by decide))

/-- The last of three states is not hashed. -/
theorem last_state_is_not_hashed : trimmed_state_sequence [0, 220, 331] ≠ trimmed_state_sequence [0, 220, 230] ∧
    hash_input (trimmed_state_sequence [0, 220, 331]) (state_bytes (trimmed_state_sequence [0, 220, 331])) =
      hash_input (trimmed_state_sequence [0, 220, 230]) (state_bytes (trimmed_state_sequence [0, 220, 230])) ∧
    hash_key [0, 220, 331] = hash_key [0, 220, 230] := by
  refine ⟨by decide, by decide, ?_⟩
  rfl

end aflnet
