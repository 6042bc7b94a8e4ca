import AflnetLegion.Coverage.NewBits
import AflnetLegion.Lib.Lanes
import Mathlib.Logic.Function.Basic
import Mathlib.Tactic.IntervalCases

open Words (load store)

namespace aflnet

/-- `simplify_lookup`: whether the edge was hit, as the two values 1 and 128. The traces of
crashes and hangs are compared without hit counts. -/
def simplify_lookup (count : UInt8) : UInt8 := if count = 0 then 1 else 128

/-- `count_class_lookup8`: the eight classes of hit counts, each with a bit of its own, and 0
for an edge that was not hit. -/
def count_class_lookup8 (count : UInt8) : UInt8 :=
  if count = 0 then 0
  else if count = 1 then 1
  else if count = 2 then 2
  else if count = 3 then 4
  else if count ≤ 7 then 8
  else if count ≤ 15 then 16
  else if count ≤ 31 then 32
  else if count ≤ 127 then 64
  else 128

/-- `(count_class_lookup8[b1] << 8) | count_class_lookup8[b2]` -/
def class_of_two (b1 b2 : Nat) : UInt16 :=
  (count_class_lookup8 (UInt8.ofNat b1)).toUInt16 <<< 8 ||| (count_class_lookup8 (UInt8.ofNat b2)).toUInt16

/-- The inner loop of `init_count_class16`, which fills the entries whose higher byte is `b1`.
The classes of the two bytes are put side by side, as the bytes are in an entry's index. -/
def init_row (b1 : Nat) (count_class_lookup16 : Nat → UInt16) : Nat → UInt16 :=
  (List.range 256).foldl (fun table b2 => Function.update table (b1 * 2 ^ 8 + b2) (class_of_two b1 b2)) count_class_lookup16

/-- The table, which is 0 before. -/
def init_count_class16 : Nat → UInt16 := (List.range 256).foldl (fun table b1 => init_row b1 table) fun _ => 0

/-- A loop over the words of a map that changes them in place. The map must be as long as so
many words, and what is behind the last of them is left out. -/
def for_words (word_size : Nat) (change : List UInt8 → List UInt8) : Nat → List UInt8 → List UInt8
  | 0, mem => mem
  | i + 1, mem => change (mem.take word_size) ++ for_words word_size change i (mem.drop word_size)

/-- `mem16[k] = count_class_lookup16[mem16[k]]` for each half word of a word. The value of a
half word depends on the order of its bytes in memory, and so does the place of its classes. -/
def classify_halves (count_class_lookup16 : Nat → UInt16) : List UInt8 → List UInt8
  | low :: high :: mem =>
    store (count_class_lookup16 (load 16 [low, high]).toNat).toBitVec 2 ++ classify_halves count_class_lookup16 mem
  | [low] => [low]
  | [] => []

/-- A word that is 0 is left as it is without a look at its halves. The table has 0 for the
count 0, so this changes nothing. -/
def classify_word (word_size : Nat) (mem : List UInt8) : List UInt8 :=
  if load (8 * word_size) mem ≠ 0 then classify_halves init_count_class16 mem else mem

/-- The loop of `classify_counts` over a map, for both word sizes. The source has two functions
of the name, one for each size, which differ in the number of half words only. -/
def classify_counts (word_size : Nat) (mem : List UInt8) : List UInt8 :=
  for_words word_size (classify_word word_size) (mem.length / word_size) mem

/-- A word that is 0 gets the value 1 in each byte at once, by the constant of the word size;
the bytes of another word are looked up one by one. -/
def simplify_word (word_size : Nat) (mem : List UInt8) : List UInt8 :=
  if load (8 * word_size) mem ≠ 0 then mem.map simplify_lookup
  else store ((0x0101010101010101#64).setWidth (8 * word_size)) word_size

/-- The loop of `simplify_trace` over a map, for both word sizes. As for `classify_counts` the
source has one function for each of them. -/
def simplify_trace (word_size : Nat) (mem : List UInt8) : List UInt8 :=
  for_words word_size (simplify_word word_size) (mem.length / word_size) mem

section table

variable {table : Nat → UInt16} {b1 n m : Nat}

/-- The invariant of the inner loop: the first `m` entries of the row are right and nothing else
has changed. -/
theorem init_row_upto (hm : m ≤ 256) (n : Nat) :
    (List.range m).foldl (fun table b2 => Function.update table (b1 * 2 ^ 8 + b2) (class_of_two b1 b2)) table n =
      if n / 256 = b1 ∧ n % 256 < m then class_of_two b1 (n % 256) else table n := by
  induction m with
  | zero => simp
  | succ m ih =>
    rw [List.range_succ, List.foldl_append, List.foldl_cons, List.foldl_nil]
    by_cases hn : n = b1 * 2 ^ 8 + m
    · subst hn
      have hdiv : (b1 * 2 ^ 8 + m) / 256 = b1 := by omega
      have hmod : (b1 * 2 ^ 8 + m) % 256 = m := by omega
      rw [Function.update_self, hdiv, hmod, if_pos ⟨rfl, Nat.lt_succ_self m⟩]
    · have hsame : n / 256 = b1 ∧ n % 256 < m ↔ n / 256 = b1 ∧ n % 256 < m + 1 := by omega
      rw [Function.update_of_ne hn, ih (by omega), if_congr hsame rfl rfl]

theorem init_row_eq (b1 : Nat) (table : Nat → UInt16) (n : Nat) :
    init_row b1 table n = if n / 256 = b1 then class_of_two b1 (n % 256) else table n := by
  have hrow : n / 256 = b1 ∧ n % 256 < 256 ↔ n / 256 = b1 := and_iff_left (Nat.mod_lt _ (by decide))
  rw [init_row, init_row_upto (Nat.le_refl _), if_congr hrow rfl rfl]

theorem init_rows_upto (m n : Nat) :
    (List.range m).foldl (fun table b1 => init_row b1 table) table n =
      if n / 256 < m then class_of_two (n / 256) (n % 256) else table n := by
  induction m with
  | zero => simp
  | succ m ih =>
    rw [List.range_succ, List.foldl_append, List.foldl_cons, List.foldl_nil, init_row_eq, ih]
    by_cases hn : n / 256 = m
    · rw [if_pos hn, if_pos (by omega), hn]
    · rw [if_neg hn]
      exact if_congr (by omega) rfl rfl

/-- Every index is the pair of its bytes. -/
theorem init_count_class16_eq (hn : n < 65536) : init_count_class16 n = class_of_two (n / 256) (n % 256) := by
  rw [init_count_class16, init_rows_upto, if_pos (by omega)]

/-- An entry of the table for half words consists of the classes of its two bytes. -/
theorem store_class_of_two (low high : UInt8) :
    store (class_of_two high.toNat low.toNat).toBitVec 2 = [count_class_lookup8 low, count_class_lookup8 high] := by
  have hpair : (class_of_two high.toNat low.toNat).toBitVec = load 16 [count_class_lookup8 low, count_class_lookup8 high] := by
    rw [class_of_two, UInt8.ofNat_toNat, UInt8.ofNat_toNat, UInt16.toBitVec_or, BitVec.or_comm]
    simp [load]
  rw [hpair]
  exact Words.store_load rfl (Nat.le_refl _)

end table

section words

variable {mem a b : List UInt8} {word_size i : Nat} {change : List UInt8 → List UInt8} {f : UInt8 → UInt8}

/-- A loop whose step is the same for each byte of a word maps that function over the whole map.
-/
theorem for_words_eq_map (hchange : ∀ word : List UInt8, word.length = word_size → change word = word.map f)
    (hlength : mem.length = word_size * i) : for_words word_size change i mem = mem.map f := by
  induction i generalizing mem with
  | zero =>
    obtain rfl := List.eq_nil_of_length_eq_zero hlength
    rfl
  | succ i ih =>
    rw [Nat.mul_succ] at hlength
    have hword : (mem.take word_size).length = word_size := by simp [hlength]
    have hrest : (mem.drop word_size).length = word_size * i := by simp [hlength]
    rw [for_words, hchange _ hword, ih hrest, ← List.map_append, List.take_append_drop]

/-- The half words of a word are classified byte by byte, whatever their number. -/
theorem classify_halves_eq_map (heven : 2 ∣ mem.length) : classify_halves init_count_class16 mem = mem.map count_class_lookup8 := by
  fun_induction classify_halves init_count_class16 mem with
  | case1 low high mem ih =>
    have htable : init_count_class16 (load 16 [low, high]).toNat = class_of_two high.toNat low.toNat := by
      have htwo : 8 * [low, high].length ≤ 16 := Nat.le_refl _
      have hone : 8 * [high].length ≤ 16 := by simp
      have hload : (load 16 [low, high]).toNat = low.toNat + 256 * high.toNat := by
        rw [Words.toNat_load_cons htwo, Words.toNat_load_cons hone]
        rfl
      have hlow : low.toNat < 256 := low.toNat_lt
      have hhigh : high.toNat < 256 := high.toNat_lt
      have hdiv : (low.toNat + 256 * high.toNat) / 256 = high.toNat := by omega
      have hmod : (low.toNat + 256 * high.toNat) % 256 = low.toNat := by omega
      rw [hload, init_count_class16_eq (by omega), hdiv, hmod]
    have hrest : 2 ∣ mem.length := by
      rw [List.length_cons, List.length_cons] at heven
      omega
    rw [htable, store_class_of_two, ih hrest, List.map_cons, List.map_cons, List.cons_append, List.cons_append, List.nil_append]
  | case2 low =>
    rw [List.length_singleton] at heven
    omega
  | case3 => rfl

/-- A word that is 0 has only zero bytes, which a function that fixes 0 leaves alone. This is
why it may be passed over. -/
theorem map_of_load_zero (hfix : f 0 = 0) (hlength : mem.length = word_size) (h : load (8 * word_size) mem = 0) : mem.map f = mem := by
  rw [Words.load_eq_zero_iff (by rw [hlength])] at h
  exact List.map_congr_left (fun byte hbyte => by rw [h byte hbyte, hfix]; rfl) |>.trans (List.map_id mem)

/-- The table for half words classifies each byte by itself. -/
theorem classify_counts_eq_map (heven : 2 ∣ word_size) (hwords : word_size ∣ mem.length) :
    classify_counts word_size mem = mem.map count_class_lookup8 := by
  refine for_words_eq_map (fun word hword => ?_) (Nat.mul_div_cancel' hwords).symm
  rw [classify_word]
  split
  · exact classify_halves_eq_map (hword ▸ heven)
  · rename_i hzero
    exact (map_of_load_zero rfl hword (not_not.mp hzero)).symm

/-- The constant of the simplification has a 1 in each byte of a word, for both word sizes. -/
theorem store_ones (hsize : word_size ≤ 8) :
    store ((0x0101010101010101#64).setWidth (8 * word_size)) word_size = List.replicate word_size 1 := by
  interval_cases word_size <;> decide

theorem simplify_trace_eq_map (hsize : word_size ≤ 8) (hwords : word_size ∣ mem.length) :
    simplify_trace word_size mem = mem.map simplify_lookup := by
  refine for_words_eq_map (fun word hword => ?_) (Nat.mul_div_cancel' hwords).symm
  rw [simplify_word]
  split
  · rfl
  · rename_i hzero
    rw [not_not, Words.load_eq_zero_iff (by rw [hword])] at hzero
    have hreplicate : word = List.replicate word_size 0 := List.eq_replicate_iff.mpr ⟨hword, hzero⟩
    rw [store_ones hsize, hreplicate, List.map_replicate]
    rfl

end words

end aflnet
