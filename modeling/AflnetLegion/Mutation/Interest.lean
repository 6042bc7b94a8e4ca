import AflnetLegion.Mutation.Arith

open Words

namespace aflnet

/-- `(old & ~(mask << (i * 8))) | (x << (i * 8))` -/
def insert_at (mask old_val : BitVec 32) (i : Nat) (x : BitVec 32) : BitVec 32 :=
  (old_val &&& ~~~ (mask <<< (i * 8))) ||| (x <<< (i * 8))

/-- Whether one of the insertions over `old_val` gives `new_val`: an interesting byte, at one of
the places in a word of `blen` bytes. -/
def any_byte_insertion (old_val new_val : BitVec 32) (blen : Nat) : Bool :=
  (List.range blen).any fun i => interesting_8.any fun value =>
    new_val = insert_at 0xff old_val i (cast_to 8 (.ofInt 32 value))

/-- Whether an interesting word over `old_val` gives `new_val`. The swapped order is only tried
if `blen` is more than 2: for two bytes it is the one that the caller asks about. -/
def any_word_insertion (old_val new_val : BitVec 32) (blen : Nat) : Bool :=
  (List.range (blen - 1)).any fun i => interesting_16.any fun value =>
    new_val = insert_at 0xffff old_val i (cast_to 16 (.ofInt 32 value)) ∨
      2 < blen ∧ new_val = insert_at 0xffff old_val i (swap16 (.ofInt 32 value))

/-- `could_be_interest`: bytes are inserted in all places, then half words in the orders that
are asked for, and at last the whole word. -/
def could_be_interest (old_val new_val : BitVec 32) (blen : Nat) (check_le : Bool) : Bool :=
  if old_val = new_val then true
  else if any_byte_insertion old_val new_val blen then true
  else if blen = 2 ∧ ¬ check_le then false
  else if any_word_insertion old_val new_val blen then true
  else blen = 4 ∧ check_le ∧ interesting_32.any fun value => new_val = .ofInt 32 value

/-- The interesting values for words of so many bytes. -/
def interesting (size : Nat) : List Int :=
  if size = 1 then interesting_8 else if size = 2 then interesting_16 else if size = 4 then interesting_32 else []

/-- An interesting value is stored in a buffer: one that is smaller than the buffer, in the
swapped order only if the buffer has 4 bytes, or one of the size of the buffer, if asked
for and in the order of the machine. -/
def Interest (old new : List UInt8) (check_le : Bool) : Prop :=
  ∃ order size i value, value ∈ interesting size ∧ i + size ≤ old.length ∧
    new = put order old i size (BitVec.ofInt 32 value) ∧
    (size < old.length ∧ (order = .be → old.length = 4) ∨ size = old.length ∧ check_le = true ∧ order = .le)

section insert_at

variable {order : Order} {size n i : Nat} {mask old_val new_val x z : BitVec 32}

/-- The bits of a word after an insertion: those of the value in its place and the old ones
elsewhere. -/
theorem getLsbD_insert_at (hmask : ∀ k < 32, mask.getLsbD k = decide (k < 8 * size)) (hx : ∀ k, 8 * size ≤ k → x.getLsbD k = false)
    {k : Nat} (hk : k < 32) : (insert_at mask old_val i x).getLsbD k =
      if 8 * i ≤ k ∧ k < 8 * (i + size) then x.getLsbD (k - 8 * i) else old_val.getLsbD k := by
  rw [insert_at, Nat.mul_comm i 8]
  simp only [BitVec.getLsbD_or, BitVec.getLsbD_and, BitVec.getLsbD_not, BitVec.getLsbD_shiftLeft, hk, decide_true, Bool.true_and]
  rcases Nat.lt_or_ge k (8 * i) with hbefore | hge
  · have hout : ¬ 8 * i ≤ k := Nat.not_le.mpr hbefore
    simp [hbefore, hout]
  · have hnot : ¬ k < 8 * i := Nat.not_lt.mpr hge
    rw [hmask _ (by omega)]
    rcases Nat.lt_or_ge k (8 * (i + size)) with hin | hafter
    · have hlow : k - 8 * i < 8 * size := by omega
      simp [hge, hnot, hin, hlow]
    · have hhigh : 8 * size ≤ k - 8 * i := by omega
      simp [hnot, Nat.not_lt.mpr hafter, Nat.not_lt.mpr hhigh, hx _ hhigh]

/-- The insertion of a word is the store of its bytes. -/
theorem put_insert_at (hmask : ∀ k < 32, mask.getLsbD k = decide (k < 8 * size)) (hx : ∀ k, 8 * size ≤ k → x.getLsbD k = false)
    (hi : i + size ≤ n) (hn : 8 * n ≤ 32) (horder : store x size = order.arrange (store z size)) :
    store (insert_at mask old_val i x) n = put order (store old_val n) i size z := by
  refine (put_store hi (fun k hk hout => ?_) (horder ▸ store_eq_iff.mpr fun k hk => ?_)).symm
  · rw [getLsbD_insert_at hmask hx (by omega), if_neg hout]
  · rw [BitVec.getLsbD_ushiftRight, getLsbD_insert_at hmask hx (by omega), if_pos (by omega), Nat.add_sub_cancel_left]

end insert_at

section could_be_interest

variable {old_val new_val : BitVec 32} {blen : Nat} {check_le : Bool}

theorem cast_to_high {bits : Nat} (x : BitVec 32) (k : Nat) (hk : bits ≤ k) : (cast_to bits x).getLsbD k = false := by
  rcases Nat.lt_or_ge k 32 with hin | hout
  · rw [getLsbD_cast_to bits x hin, decide_eq_false (Nat.not_lt.mpr hk), Bool.false_and]
  · exact BitVec.getLsbD_of_ge _ _ hout

theorem swap16_high (x : BitVec 32) (k : Nat) (hk : 16 ≤ k) : (swap16 x).getLsbD k = false := by
  rw [swap16, BitVec.getLsbD_setWidth, BitVec.getLsbD_of_ge _ _ hk, Bool.and_false]

/-- A byte that was inserted is stored at its position. -/
theorem interest_of_byte (hblen : blen = 2 ∨ blen = 4) (h : any_byte_insertion old_val new_val blen = true) :
    Interest (store old_val blen) (store new_val blen) check_le := by
  obtain ⟨i, hi, h⟩ := List.any_eq_true.mp h
  obtain ⟨value, hvalue, h⟩ := List.any_eq_true.mp h
  obtain rfl := of_decide_eq_true h
  have hin : i + 1 ≤ blen := List.mem_range.mp hi
  refine ⟨.le, 1, i, value, hvalue, by simpa using hin, ?_, Or.inl ⟨by simp; omega, nofun⟩⟩
  exact put_insert_at (by decide) (cast_to_high _) hin (by omega) (store_eq_of_setWidth (setWidth_cast_to (by decide) _))

/-- A half word that was inserted is stored at its position, in one of the two orders. -/
theorem interest_of_word (hblen : blen = 2 ∨ blen = 4) (hasked : blen = 2 → check_le = true)
    (h : any_word_insertion old_val new_val blen = true) : Interest (store old_val blen) (store new_val blen) check_le := by
  obtain ⟨i, hi, h⟩ := List.any_eq_true.mp h
  obtain ⟨value, hvalue, h⟩ := List.any_eq_true.mp h
  have hin : i + 2 ≤ blen := by
    have hlt := List.mem_range.mp hi
    omega
  have hmask : ∀ k < 32, (0xffff : BitVec 32).getLsbD k = decide (k < 8 * 2) := by decide
  rcases of_decide_eq_true h with rfl | ⟨hlong, rfl⟩
  · refine ⟨.le, 2, i, value, hvalue, by simpa using hin, ?_, ?_⟩
    · exact put_insert_at hmask (cast_to_high _) hin (by omega) (store_eq_of_setWidth (setWidth_cast_to (by decide) _))
    · rw [length_store]
      rcases hblen with rfl | rfl
      · exact Or.inr ⟨rfl, hasked rfl, rfl⟩
      · exact Or.inl ⟨by decide, nofun⟩
  · refine ⟨.be, 2, i, value, hvalue, by simpa using hin, ?_, Or.inl ?_⟩
    · exact put_insert_at hmask (swap16_high _) hin (by omega) (store_swap16 _)
    · rw [length_store]
      omega

theorem interest_of_dword (hasked : check_le = true)
    (h : (interesting_32.any fun value => new_val = BitVec.ofInt 32 value) = true) :
    Interest (store old_val 4) (store new_val 4) check_le := by
  obtain ⟨value, hvalue, h⟩ := List.any_eq_true.mp h
  obtain rfl := of_decide_eq_true h
  refine ⟨.le, 4, 0, value, hvalue, Nat.le_refl 4, (put_store (Nat.le_refl 4) (fun k hk hout => ?_) rfl).symm, Or.inr ⟨rfl, hasked, rfl⟩⟩
  exact absurd ⟨Nat.zero_le k, hk⟩ hout

/-- What is taken for an insertion is one, in the memory that the values are stored in. -/
theorem could_be_interest_sound (hblen : blen = 2 ∨ blen = 4) (h : could_be_interest old_val new_val blen check_le = true) :
    old_val = new_val ∨ Interest (store old_val blen) (store new_val blen) check_le := by
  unfold could_be_interest at h
  split at h
  · rename_i heq
    exact Or.inl heq
  · right
    split at h
    · rename_i hbyte
      exact interest_of_byte hblen hbyte
    · split at h
      · cases h
      · rename_i hmore
        have hasked : blen = 2 → check_le = true := fun hshort => by simpa [hshort] using hmore
        split at h
        · rename_i hword
          exact interest_of_word hblen hasked hword
        · obtain ⟨rfl, hle, hdword⟩ := of_decide_eq_true h
          exact interest_of_dword hle hdword

/-- Neither of the two checks skips a value that was not tried: what `could_be_arith` reports
adds to a byte, a word or a double word or subtracts from it, and what `could_be_interest`
reports sets one of them to an interesting value. -/
theorem duplicates_are_sound :
    (∀ (old_val new_val : BitVec 32) (blen : Nat), blen = 1 ∨ blen = 2 ∨ blen = 4 →
      could_be_arith old_val new_val blen = true → old_val = new_val ∨ Arith (store old_val blen) (store new_val blen)) ∧
      ∀ (old_val new_val : BitVec 32) (blen : Nat) (check_le : Bool), blen = 2 ∨ blen = 4 →
        could_be_interest old_val new_val blen check_le = true →
          old_val = new_val ∨ Interest (store old_val blen) (store new_val blen) check_le :=
  ⟨fun _ _ _ => could_be_arith_sound, fun _ _ _ _ => could_be_interest_sound⟩

/-- An addition with a carry into the other byte, and 1000 in the swapped order. -/
theorem duplicates_are_sound_of_words :
    ((0xFE01 : BitVec 32) = 0x0202 ∨ Arith (store (0xFE01 : BitVec 32) 2) (store (0x0202 : BitVec 32) 2)) ∧
      ((0xAABBCCDD : BitVec 32) = 0xAAE803DD ∨
        Interest (store (0xAABBCCDD : BitVec 32) 4) (store (0xAAE803DD : BitVec 32) 4) false) :=
  ⟨duplicates_are_sound.1 0xFE01 0x0202 2 (Or.inr (Or.inl rfl)) (by decide),
    duplicates_are_sound.2 0xAABBCCDD 0xAAE803DD 4 false (Or.inr rfl) (by decide)⟩

end could_be_interest

end aflnet
