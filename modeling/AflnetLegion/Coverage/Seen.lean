import AflnetLegion.Lib.Novelty
import AflnetLegion.Coverage.Counting
import AflnetLegion.Coverage.Classify

namespace aflnet

/-- What a trace shows, as the numbers of its bits. -/
def shown (trace_bits : List UInt8) : Finset Nat := (Finset.range (8 * trace_bits.length)).filter fun k => map_bit trace_bits k = true

/-- What has been seen according to a virgin map, in which a bit is cleared when it is seen. -/
def seen (virgin_map : List UInt8) : Finset Nat := (Finset.range (8 * virgin_map.length)).filter fun k => map_bit virgin_map k = false

section maps

variable {cur vir : List UInt8} {i k n : Nat}

theorem mem_shown : k ∈ shown cur ↔ map_bit cur k = true := by
  rw [shown, Finset.mem_filter, Finset.mem_range, and_iff_right_of_imp]
  intro hbit
  by_contra hk
  have hnone : cur[k / 8]? = none := List.getElem?_eq_none (by omega)
  rw [map_bit, List.getD_eq_getElem?_getD, hnone] at hbit
  simp at hbit

/-- A number has been seen if its bit is cleared in the virgin map. Outside of the map nothing
has. -/
theorem mem_seen : k ∈ seen vir ↔ k < 8 * vir.length ∧ map_bit vir k = false := by
  rw [seen, Finset.mem_filter, Finset.mem_range]

theorem map_bit_eq (hi : i < cur.length) (hk : k < 8) : map_bit cur (8 * i + k) = cur[i].toBitVec.getLsbD k := by
  rw [map_bit, Nat.mul_add_div (by decide), Nat.mul_add_mod, Nat.div_eq_of_lt hk, Nat.mod_eq_of_lt hk, Nat.add_zero,
    List.getD_eq_getElem?_getD, List.getElem?_eq_getElem hi, Option.getD_some]

theorem byte_eq_zero_iff {byte : UInt8} : byte = 0 ↔ ∀ k < 8, byte.toBitVec.getLsbD k = false := by
  rw [← UInt8.toBitVec_inj]
  refine ⟨fun h k _ => by rw [h]; exact BitVec.getLsbD_zero, fun h => BitVec.eq_of_getLsbD_eq fun k hk => ?_⟩
  rw [h k hk]
  exact BitVec.getLsbD_zero.symm

theorem and_eq_zero_iff {x y : UInt8} : x &&& y = 0 ↔ ∀ k < 8, x.toBitVec.getLsbD k = true → y.toBitVec.getLsbD k = false := by
  simp only [byte_eq_zero_iff, UInt8.toBitVec_and, BitVec.getLsbD_and, Bool.and_eq_false_imp]

theorem eq_255_iff {byte : UInt8} : byte = 255 ↔ ∀ k < 8, byte.toBitVec.getLsbD k = true := by
  rw [← UInt8.toBitVec_inj]
  have hones : (255 : UInt8).toBitVec = BitVec.allOnes 8 := rfl
  refine ⟨fun h k hk => by rw [h, hones, BitVec.getLsbD_allOnes, decide_eq_true hk], fun h => BitVec.eq_of_getLsbD_eq fun k hk => ?_⟩
  rw [h k hk, hones, BitVec.getLsbD_allOnes, decide_eq_true hk]

/-- A bit of a map is one of a byte of it. -/
theorem exists_of_lt (hk : k < 8 * n) : ∃ i b, i < n ∧ b < 8 ∧ k = 8 * i + b :=
  ⟨k / 8, k % 8, by omega, Nat.mod_lt _ (by decide), (Nat.div_add_mod k 8).symm⟩

theorem lt_of_mem_shown (h : k ∈ shown cur) : k < 8 * cur.length := Finset.mem_range.mp (Finset.mem_filter.mp h).1

/-- There is a new bit exactly if the trace shows something that has not been seen. -/
theorem has_new_bit_iff (hlength : cur.length = vir.length) : has_new_bit cur vir = true ↔ ¬ shown cur ⊆ seen vir := by
  rw [← Bool.not_eq_false, has_new_bit_eq_false_iff, not_iff_not]
  constructor
  · intro h k hk
    obtain ⟨i, b, hi, hb, rfl⟩ := exists_of_lt (lt_of_mem_shown hk)
    have hin : i < (cur.zip vir).length := by simp [← hlength, hi]
    have hbyte := h _ (List.getElem_mem hin)
    rw [List.getElem_zip, and_eq_zero_iff] at hbyte
    have hbit := mem_shown.mp hk
    rw [map_bit_eq hi hb] at hbit
    refine mem_seen.mpr ⟨by omega, ?_⟩
    rw [map_bit_eq (by omega) hb]
    exact hbyte b hb hbit
  · intro h bytes hmem
    obtain ⟨i, hi, rfl⟩ := List.getElem_of_mem hmem
    have hcur : i < cur.length := by simp at hi; exact hi.1
    rw [List.getElem_zip, and_eq_zero_iff]
    intro b hb hbit
    rw [← map_bit_eq hcur hb] at hbit
    have hseen := (mem_seen.mp (h (mem_shown.mpr hbit))).2
    rwa [map_bit_eq (by omega) hb] at hseen

/-- A byte of the trace that is not 0 belongs to an edge of which nothing has been seen. -/
theorem has_new_byte_iff (hlength : cur.length = vir.length) :
    has_new_byte cur vir = true ↔ ∃ i, (∃ b < 8, 8 * i + b ∈ shown cur) ∧ ∀ b < 8, 8 * i + b ∉ seen vir := by
  have hbyte : ∀ i (hi : i < (cur.zip vir).length), ((cur.zip vir)[i].1 ≠ 0 ∧ (cur.zip vir)[i].2 = 0xff) ↔
      (∃ b < 8, 8 * i + b ∈ shown cur) ∧ ∀ b < 8, 8 * i + b ∉ seen vir := by
    intro i hi
    have hcur : i < cur.length := by simp at hi; exact hi.1
    have hvir : i < vir.length := hlength ▸ hcur
    rw [List.getElem_zip]
    refine and_congr ?_ ?_
    · rw [ne_eq, byte_eq_zero_iff]
      simp only [not_forall, Bool.not_eq_false, exists_prop]
      exact exists_congr fun b => and_congr_right fun hb => by rw [mem_shown, map_bit_eq hcur hb]
    · have hones : (0xff : UInt8) = 255 := rfl
      rw [hones, eq_255_iff]
      refine forall_congr' fun b => imp_congr_right fun hb => ?_
      rw [mem_seen, map_bit_eq hvir hb, and_iff_right (by omega), Bool.not_eq_false]
  rw [has_new_byte, List.any_eq_true]
  constructor
  · rintro ⟨bytes, hmem, hp⟩
    obtain ⟨i, hi, rfl⟩ := List.getElem_of_mem hmem
    exact ⟨i, (hbyte i hi).mp (of_decide_eq_true hp)⟩
  · rintro ⟨i, hi⟩
    obtain ⟨b, hb, hshown⟩ := hi.1
    have hlt := lt_of_mem_shown hshown
    have hin : i < (cur.zip vir).length := by
      rw [List.length_zip, ← hlength, Nat.min_self]
      omega
    exact ⟨_, List.getElem_mem hin, decide_eq_true ((hbyte i hin).mpr hi)⟩

/-- Clearing the bits of a trace adds what it shows to what has been seen. -/
theorem seen_clear_bits (hlength : cur.length = vir.length) : seen (clear_bits cur vir) = seen vir ∪ shown cur := by
  ext k
  rw [Finset.mem_union, mem_seen, mem_seen, mem_shown, length_clear_bits hlength]
  by_cases hk : k < 8 * vir.length
  · obtain ⟨i, b, hi, hb, rfl⟩ := exists_of_lt hk
    have hclear : i < (clear_bits cur vir).length := by rw [length_clear_bits hlength]; exact hi
    have hbyte : (clear_bits cur vir)[i] = vir[i] &&& ~~~ cur[i] := by simp [clear_bits]
    rw [map_bit_eq hclear hb, map_bit_eq hi hb, map_bit_eq (by omega) hb, hbyte, UInt8.toBitVec_and, BitVec.getLsbD_and,
      UInt8.toBitVec_not, BitVec.getLsbD_not, decide_eq_true hb]
    cases vir[i].toBitVec.getLsbD b <;> cases cur[i].toBitVec.getLsbD b <;> simp [hk]
  · have hnone : ¬ map_bit cur k = true := fun hbit => hk (hlength ▸ lt_of_mem_shown (mem_shown.mpr hbit))
    simp [hk, hnone]

theorem seen_subset (vir : List UInt8) : seen vir ⊆ Finset.range (8 * vir.length) := Finset.filter_subset _ _

theorem shown_subset (cur : List UInt8) : shown cur ⊆ Finset.range (8 * cur.length) := Finset.filter_subset _ _

/-- Nothing has been seen in a fresh map. -/
theorem seen_fresh (n : Nat) : seen (List.replicate n 255) = ∅ := by
  refine Finset.eq_empty_of_forall_notMem fun k hk => ?_
  obtain ⟨hlt, hbit⟩ := mem_seen.mp hk
  obtain ⟨i, b, hi, hb, rfl⟩ := exists_of_lt hlt
  rw [map_bit_eq hi hb, List.getElem_replicate, eq_255_iff.mp rfl b hb] at hbit
  cases hbit

/-- A bit is set or it has been seen. -/
theorem bits_set_add_card_seen (vir : List UInt8) : bits_set vir + (seen vir).card = 8 * vir.length := by
  rw [bits_set, Nat.count_eq_card_filter_range, seen]
  have hsplit := Finset.card_filter_add_card_filter_not (s := Finset.range (8 * vir.length)) fun k => map_bit vir k = true
  simpa using hsplit

/-- The edges of which something has been seen. -/
def edges (bits : Finset Nat) : Finset Nat := bits.image (· / 8)

theorem mem_edges {bits : Finset Nat} : i ∈ edges bits ↔ ∃ b < 8, 8 * i + b ∈ bits := by
  rw [edges, Finset.mem_image]
  constructor
  · rintro ⟨k, hk, rfl⟩
    exact ⟨k % 8, Nat.mod_lt _ (by decide), by rwa [Nat.div_add_mod]⟩
  · rintro ⟨b, hb, hbits⟩
    exact ⟨8 * i + b, hbits, by omega⟩

theorem countP_eq_count {α : Type} (p : α → Bool) (l : List α) (d : α) :
    l.countP p = Nat.count (fun i => p (l.getD i d) = true) l.length := by
  induction l with
  | nil => rfl
  | cons a l ih =>
    rw [List.countP_cons, List.length_cons, Nat.count_succ', ih]
    rfl

/-- The bytes of a virgin map that are not 255 are the edges of which something has been seen.
-/
theorem countP_ne_255 (vir : List UInt8) : vir.countP (· ≠ 255) = (edges (seen vir)).card := by
  rw [countP_eq_count _ vir 255, Nat.count_eq_card_filter_range]
  congr 1
  ext i
  rw [Finset.mem_filter, Finset.mem_range, decide_eq_true_iff, mem_edges]
  constructor
  · rintro ⟨hi, hne⟩
    rw [List.getD_eq_getElem?_getD, List.getElem?_eq_getElem hi, Option.getD_some, ne_eq, eq_255_iff] at hne
    simp only [not_forall, Bool.not_eq_true, exists_prop] at hne
    obtain ⟨b, hb, hbit⟩ := hne
    exact ⟨b, hb, mem_seen.mpr ⟨by omega, by rw [map_bit_eq hi hb, hbit]⟩⟩
  · rintro ⟨b, hb, hseen⟩
    obtain ⟨hlt, hbit⟩ := mem_seen.mp hseen
    have hi : i < vir.length := by omega
    rw [map_bit_eq hi hb] at hbit
    refine ⟨hi, ?_⟩
    rw [List.getD_eq_getElem?_getD, List.getElem?_eq_getElem hi, Option.getD_some, ne_eq, eq_255_iff]
    exact fun hall => Bool.noConfusion (hbit.symm.trans (hall b hb))

/-- What `has_new_bits` does to the set of what has been seen. -/
theorem has_new_bits_seen {word_size : Nat} {c : Coverage} (hwords : word_size ∣ cur.length)
    (hlength : c.virgin_map.length = cur.length) :
    ((has_new_bits word_size cur c).1 ≠ 0 ↔ ¬ shown cur ⊆ seen c.virgin_map) ∧
      ((has_new_bits word_size cur c).1 = 2 ↔ ¬ edges (shown cur) ⊆ edges (seen c.virgin_map)) ∧
      seen (has_new_bits word_size cur c).2.virgin_map = seen c.virgin_map ∪ shown cur ∧
      (has_new_bits word_size cur c).2.virgin_map.length = c.virgin_map.length := by
  have hbyte : has_new_byte cur c.virgin_map = true ↔ ¬ edges (shown cur) ⊆ edges (seen c.virgin_map) := by
    rw [has_new_byte_iff hlength.symm, Finset.not_subset]
    simp only [mem_edges, not_exists, not_and]
  rw [has_new_bits_eq hwords hlength]
  refine ⟨?_, ?_, seen_clear_bits hlength.symm, length_clear_bits hlength.symm⟩
  · rw [← has_new_bit_iff hlength.symm]
    cases hnew : has_new_bit cur c.virgin_map with
    | false => simp [has_new_byte_of_no_bit hnew, finds]
    | true => cases has_new_byte cur c.virgin_map <;> simp [finds]
  · rw [← hbyte]
    cases has_new_byte cur c.virgin_map with
    | false => cases has_new_bit cur c.virgin_map <;> simp [finds]
    | true => simp [finds]

end maps

section hits

variable {hits : List UInt8} {i c : Nat}

/-- The least hit count of each class, and the one above the last. The classes are 1, 2, 3, 4 to
7, 8 to 15, 16 to 31, 32 to 127 and from 128 on. -/
def class_start : Nat → Nat
  | 0 => 1
  | 1 => 2
  | 2 => 3
  | 3 => 4
  | 4 => 8
  | 5 => 16
  | 6 => 32
  | 7 => 128
  | _ => 256

set_option maxRecDepth 4000 in
/-- A classified count has the bit of its class and no other, for all 256 counts. -/
theorem class_bit : ∀ count : UInt8, ∀ c < 8,
    (count_class_lookup8 count).toBitVec.getLsbD c = decide (class_start c ≤ count.toNat ∧ count.toNat < class_start (c + 1)) :=
  forall_byte (by decide)

/-- A classified trace shows, for each edge that is hit, the class of its hit count. -/
theorem mem_shown_classified (hi : i < hits.length) (hc : c < 8) :
    8 * i + c ∈ shown (hits.map count_class_lookup8) ↔ class_start c ≤ hits[i].toNat ∧ hits[i].toNat < class_start (c + 1) := by
  rw [mem_shown, map_bit_eq (by simpa using hi) hc, List.getElem_map, class_bit _ c hc, decide_eq_true_iff]

/-- A simplified count has one of two bits, by whether it is 0. -/
theorem simple_bit (count : UInt8) (c : Nat) (hc : c < 8) :
    (simplify_lookup count).toBitVec.getLsbD c = decide (c = 0 ∧ count = 0 ∨ c = 7 ∧ count ≠ 0) := by
  have hnot_hit : ∀ c < 8, (1 : UInt8).toBitVec.getLsbD c = decide (c = 0) := by decide
  have hhit : ∀ c < 8, (128 : UInt8).toBitVec.getLsbD c = decide (c = 7) := by decide
  rw [simplify_lookup]
  split
  · rw [hnot_hit c hc]
    simp [*]
  · rw [hhit c hc]
    simp [*]

/-- A simplified trace shows, for each edge, whether it is hit. -/
theorem mem_shown_simplified (hi : i < hits.length) (hc : c < 8) :
    8 * i + c ∈ shown (hits.map simplify_lookup) ↔ c = 0 ∧ hits[i] = 0 ∨ c = 7 ∧ hits[i] ≠ 0 := by
  rw [mem_shown, map_bit_eq (by simpa using hi) hc, List.getElem_map, simple_bit _ c hc, decide_eq_true_iff]

theorem class_eq_zero_iff (count : UInt8) : count_class_lookup8 count = 0 ↔ count = 0 := by
  rw [count_class_lookup8]
  split_ifs <;> simp_all

end hits

/-- Maps of `n` bytes and the words they are read in. Words of 4 and of 8 bytes satisfy it for
the size of the maps, for which the counts of bits do not wrap either. -/
structure Word_sized (word_size n : Nat) : Prop where
  even : 2 ∣ word_size
  small : word_size ≤ 8
  words : word_size ∣ n
  fours : 4 ∣ n
  room : n < 2 ^ 29

/-- What each of some runs, of which there are the hit counts, makes `has_new_bits` return. -/
def check_runs (word_size : Nat) : List (List UInt8) → Coverage → List UInt8 × Coverage
  | [], c => ([], c)
  | hits :: runs, c =>
    let first := has_new_bits word_size (classify_counts word_size hits) c
    let rest := check_runs word_size runs first.2
    (first.1 :: rest.1, rest.2)

/-- The number that is shown as the covered tuples. -/
def t_bits (virgin_bits : List UInt8) : UInt32 := UInt32.ofNat (virgin_bits.length <<< 3) - count_bits virgin_bits

/-- `t_bytes`: the number of edges that have been hit, as it is shown. -/
def t_bytes (virgin_bits : List UInt8) : UInt32 := count_non_255_bytes virgin_bits

section runs

variable {word_size n i : Nat} {runs : List (List UInt8)} {c : Coverage} {hits : List UInt8}

/-- Runs are reported as their sets of bits are when they are added to one set after the other.
-/
theorem check_runs_seen (hsize : Word_sized word_size n) (hruns : ∀ hits ∈ runs, hits.length = n) (hc : c.virgin_map.length = n) :
    (check_runs word_size runs c).1.map (fun ret => decide (ret ≠ 0)) =
        Novelty.reports (seen c.virgin_map) (runs.map fun hits => shown (hits.map count_class_lookup8)) ∧
      seen (check_runs word_size runs c).2.virgin_map =
        Novelty.after (seen c.virgin_map) (runs.map fun hits => shown (hits.map count_class_lookup8)) ∧
      (check_runs word_size runs c).2.virgin_map.length = n := by
  induction runs generalizing c with
  | nil => exact ⟨rfl, rfl, hc⟩
  | cons hits runs ih =>
    obtain ⟨hhits, hruns⟩ := List.forall_mem_cons.mp hruns
    have htrace : (hits.map count_class_lookup8).length = n := (List.length_map _).trans hhits
    obtain ⟨hnew, -, hseen, hlength⟩ := has_new_bits_seen (htrace ▸ hsize.words) (hc.trans htrace.symm)
    obtain ⟨hreports, hafter, hsized⟩ := ih (c := (has_new_bits word_size (hits.map count_class_lookup8) c).2) hruns (hlength.trans hc)
    rw [hseen] at hreports hafter
    rw [check_runs, classify_counts_eq_map hsize.even (hhits ▸ hsize.words)]
    refine ⟨?_, hafter, hsized⟩
    rw [List.map_cons, List.map_cons, Novelty.reports, hreports, decide_eq_decide.mpr hnew]

theorem mem_edges_classified (hi : i < hits.length) : i ∈ edges (shown (hits.map count_class_lookup8)) ↔ hits.getD i 0 ≠ 0 := by
  rw [List.getD_eq_getElem?_getD, List.getElem?_eq_getElem hi, Option.getD_some, ne_eq, ← class_eq_zero_iff, byte_eq_zero_iff, mem_edges]
  simp only [not_forall, Bool.not_eq_false, exists_prop]
  refine exists_congr fun b => and_congr_right fun hb => ?_
  rw [mem_shown, map_bit_eq (by simpa using hi) hb, List.getElem_map]

/-- The edges that some run has hit. -/
theorem edges_after (hruns : ∀ hits ∈ runs, hits.length = n) :
    edges (Novelty.after ∅ (runs.map fun hits => shown (hits.map count_class_lookup8))) =
      (Finset.range n).filter fun i => ∃ hits ∈ runs, hits.getD i 0 ≠ 0 := by
  ext i
  rw [Finset.mem_filter, Finset.mem_range, mem_edges]
  simp only [Novelty.mem_after, Finset.notMem_empty, false_or, List.mem_map, exists_exists_and_eq_and]
  constructor
  · rintro ⟨b, hb, hits, hmem, hshown⟩
    have hlt := lt_of_mem_shown hshown
    rw [List.length_map, hruns hits hmem] at hlt
    have hi : i < n := by omega
    exact ⟨hi, hits, hmem, (mem_edges_classified (hruns hits hmem ▸ hi)).mp (mem_edges.mpr ⟨b, hb, hshown⟩)⟩
  · rintro ⟨hi, hits, hmem, hhit⟩
    obtain ⟨b, hb, hshown⟩ := mem_edges.mp ((mem_edges_classified (hruns hits hmem ▸ hi)).mpr hhit)
    exact ⟨b, hb, hits, hmem, hshown⟩

/-- From a fresh map on, a run is reported exactly if it shows a class of hit counts of an edge for the first time, which
happens at most eight times for an edge, and the statistics are the numbers of such pairs and of the edges that were hit. -/
theorem coverage_is_counted (hsize : Word_sized word_size n) (hruns : ∀ hits ∈ runs, hits.length = n)
    (hfresh : c.virgin_map = List.replicate n 255) :
    (check_runs word_size runs c).1.map (fun ret => decide (ret ≠ 0)) =
        Novelty.reports ∅ (runs.map fun hits => shown (hits.map count_class_lookup8)) ∧
      (check_runs word_size runs c).1.countP (· ≠ 0) ≤ 8 * n ∧
      (t_bits (check_runs word_size runs c).2.virgin_map).toNat =
        (Novelty.after ∅ (runs.map fun hits => shown (hits.map count_class_lookup8))).card ∧
      (t_bytes (check_runs word_size runs c).2.virgin_map).toNat =
        ((Finset.range n).filter fun i => ∃ hits ∈ runs, hits.getD i 0 ≠ 0).card := by
  have hroom := hsize.room
  obtain ⟨hreports, hafter, hlength⟩ := check_runs_seen hsize hruns (hfresh ▸ List.length_replicate : c.virgin_map.length = n)
  rw [hfresh, seen_fresh] at hreports hafter
  have hbits := toNat_count_bits (hlength ▸ hsize.fours) (hlength ▸ hroom)
  have hsplit := bits_set_add_card_seen (check_runs word_size runs c).2.virgin_map
  have hbytes := toNat_count_non_255_bytes (hlength ▸ hsize.fours) (hlength ▸ hroom)
  rw [hlength] at hsplit
  refine ⟨hreports, ?_, ?_, ?_⟩
  · have hall : ∀ found ∈ runs.map fun hits => shown (hits.map count_class_lookup8), found ⊆ Finset.range (8 * n) := by
      intro found hfound
      obtain ⟨hits, hmem, rfl⟩ := List.mem_map.mp hfound
      have hsub := shown_subset (hits.map count_class_lookup8)
      rwa [List.length_map, hruns hits hmem] at hsub
    have hle := Novelty.count_reports_le (Finset.empty_subset _) hall
    rw [← hreports, List.count_eq_countP, List.countP_map, Finset.card_range, Finset.card_empty] at hle
    simpa [Function.comp_def] using hle
  · have hle : count_bits (check_runs word_size runs c).2.virgin_map ≤ UInt32.ofNat (n <<< 3) := by
      rw [UInt32.le_iff_toNat_le, hbits, UInt32.toNat_ofNat_of_lt' (by rw [Nat.shiftLeft_eq]; simp [UInt32.size]; omega), Nat.shiftLeft_eq]
      omega
    rw [t_bits, hlength, UInt32.toNat_sub_of_le _ _ hle, hbits,
      UInt32.toNat_ofNat_of_lt' (by rw [Nat.shiftLeft_eq]; simp [UInt32.size]; omega), Nat.shiftLeft_eq, ← hafter]
    omega
  · rw [t_bytes, hbytes, countP_ne_255, hafter, edges_after hruns]

/-- Three runs, of which the last one shows nothing new. -/
def sample_runs : List (List UInt8) := [[0, 3, 0, 0, 0, 0, 0, 0], [0, 200, 0, 1, 0, 0, 0, 0], [0, 3, 0, 1, 0, 0, 0, 0]]

/-- A virgin map of one word. -/
def fresh_coverage : Coverage := { virgin_map := List.replicate 8 255, is_virgin_bits := true, bitmap_changed := false }

theorem coverage_of_three_runs :
    (check_runs 8 sample_runs fresh_coverage).1.map (fun ret => decide (ret ≠ 0)) =
        Novelty.reports ∅ (sample_runs.map fun hits => shown (hits.map count_class_lookup8)) ∧
      (check_runs 8 sample_runs fresh_coverage).1.countP (· ≠ 0) ≤ 64 ∧
      (t_bits (check_runs 8 sample_runs fresh_coverage).2.virgin_map).toNat =
        (Novelty.after ∅ (sample_runs.map fun hits => shown (hits.map count_class_lookup8))).card ∧
      (t_bytes (check_runs 8 sample_runs fresh_coverage).2.virgin_map).toNat =
        ((Finset.range 8).filter fun i => ∃ hits ∈ sample_runs, hits.getD i 0 ≠ 0).card :=
  coverage_is_counted (n := 8) ⟨by decide, by decide, by decide, by decide, by decide⟩ (by decide) rfl

end runs

end aflnet
