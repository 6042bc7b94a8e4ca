import AflnetLegion.Messages.Save

open Checked

namespace aflnet

theorem to_s32_of_nat {n : Nat} (h : n < 2147483648) : to_s32 n = n := by
  refine Int.bmod_eq_of_le ?_ ?_ <;> omega

/-- A message is given by its bytes. -/
theorem message_t.ext_mdata {m m' : message_t} (h : m.mdata = m'.mdata) : m = m' := by
  obtain ⟨mdata, msize, sized⟩ := m
  obtain ⟨mdata', msize', sized'⟩ := m'
  cases h
  rw [← sized'] at sized
  cases sized
  rfl

theorem length_consecutive_regions (start : Nat) (pieces : List (List UInt8)) :
    (consecutive_regions start pieces).length = pieces.length := by
  induction pieces generalizing start with
  | nil => rfl
  | cons piece pieces ih => rw [consecutive_regions, List.length_cons, List.length_cons, ih]

/-- The lengths of the regions are those of the pieces. -/
theorem map_piece_consecutive_regions (start : Nat) (pieces : List (List UInt8)) :
    (consecutive_regions start pieces).map (fun region => region.piece.2) = pieces.map List.length := by
  induction pieces generalizing start with
  | nil => rfl
  | cons piece pieces ih =>
    rw [consecutive_regions, List.map_cons, List.map_cons, ih]
    congr 1
    change (((start + piece.length : Nat) - 1 : Int) + 1 - (start : Int)).toNat = piece.length
    omega

/-- The loop adds the regions of its messages to those of the pieces before them. -/
theorem convert_messages_eq {ms : List message_t} {before : List (List UInt8)} (hsizes : ∀ m ∈ ms, 1 ≤ m.msize)
    (htotal : (before ++ ms.map message_t.mdata).flatten.length < 2147483648)
    (hcount : (before.length + ms.length) * sizeof_region_t ≤ MAX_ALLOC) :
    ms.foldlM convert_message (consecutive_regions 0 before, (before.flatten.length : Int)) =
      pure (consecutive_regions 0 (before ++ ms.map message_t.mdata),
        ((before ++ ms.map message_t.mdata).flatten.length : Int)) := by
  induction ms generalizing before with
  | nil =>
    rw [List.map_nil, List.append_nil]
    rfl
  | cons m ms ih =>
    have hpos := hsizes m (List.mem_cons_self ..)
    have hsplit : before ++ (m :: ms).map message_t.mdata = (before ++ [m.mdata]) ++ ms.map message_t.mdata := by simp
    have hflatten : (before ++ [m.mdata]).flatten.length = before.flatten.length + m.msize := by
      rw [List.flatten_append, List.flatten_singleton, List.length_append, m.sized]
    rw [hsplit] at htotal ⊢
    have hfirst : before.flatten.length + m.msize < 2147483648 := by
      rw [List.flatten_append, List.length_append, hflatten] at htotal
      omega
    have hsize : ((consecutive_regions 0 before).length + 1) * sizeof_region_t ≤ MAX_ALLOC := by
      rw [length_consecutive_regions]
      refine Nat.le_trans (Nat.mul_le_mul_right _ ?_) hcount
      rw [List.length_cons]
      omega
    have hend : to_s32 ((before.flatten.length : Int) + m.msize - 1) = (before.flatten.length + m.msize : Nat) - 1 := by
      rw [← Int.natCast_add, ← Int.natCast_one, ← Int.natCast_sub (by omega)]
      exact to_s32_of_nat (by omega)
    have hconvert : convert_message (consecutive_regions 0 before, (before.flatten.length : Int)) m =
        pure (consecutive_regions 0 (before ++ [m.mdata]), ((before ++ [m.mdata]).flatten.length : Int)) := by
      rw [convert_message, ck_realloc, ALLOC_CHECK_SIZE_eq hsize, pure_bind]
      dsimp only
      rw [hend, if_neg (by omega), consecutive_regions_concat, hflatten, Nat.zero_add, m.sized, Int.sub_add_cancel]
    rw [List.foldlM_cons, hconvert, pure_bind, ih (fun k hk => hsizes k (List.mem_cons_of_mem _ hk)) htotal (by
      rw [List.length_append, List.length_singleton]
      rw [List.length_cons] at hcount
      rw [show before.length + 1 + ms.length = before.length + (ms.length + 1) by omega]
      exact hcount)]

/-- The messages of consecutive regions are their pieces. -/
theorem fread_consecutive_regions {ms : List message_t} (hsizes : ∀ m ∈ ms, 1 ≤ m.msize)
    (htotal : (ms.map message_t.mdata).flatten.length ≤ MAX_ALLOC) :
    Partitions (consecutive_regions 0 (ms.map message_t.mdata)) (ms.map message_t.mdata).flatten.length ∧
      fread_messages (consecutive_regions 0 (ms.map message_t.mdata)) (ms.map message_t.mdata).flatten = ms := by
  have hne : ∀ piece ∈ ms.map message_t.mdata, piece ≠ [] := by
    intro piece hpiece
    obtain ⟨m, hm, rfl⟩ := List.mem_map.mp hpiece
    have hpos := hsizes m hm
    rw [m.sized] at hpos
    exact List.ne_nil_of_length_pos hpos
  have hpartitions := (covers_consecutive_regions hne).partitions htotal
  refine ⟨hpartitions, ?_⟩
  have hlens : (consecutive_regions 0 (ms.map message_t.mdata)).map (fun region => region_len region region) =
      (ms.map message_t.mdata).map List.length := by
    rw [← map_piece_consecutive_regions 0]
    exact List.map_congr_left fun region hregion => hpartitions.len_eq hregion
  have hread := @fread_messages_eq (consecutive_regions 0 (ms.map message_t.mdata)) (ms.map message_t.mdata).flatten
    (Nat.le_of_eq (by rw [hlens, ← List.length_flatten]))
  rw [hlens, ← List.append_nil (ms.map message_t.mdata).flatten, Tiling.reads_flatten, List.append_nil] at hread
  exact List.map_injective_iff.mpr (fun _ _ => message_t.ext_mdata) hread

/-- A queue entry written to a new file and read back. It holds the first `k` messages,
as long as they fit into one allocation and their regions into another one. -/
theorem Lists.queue_entry_round_trip {kl : klist_lms} {heap : Heap message_t} {xs : List Nat} {t : Nat}
    {ms : List message_t} (h : Lists kl heap xs t ms) (k : Nat) (hsizes : ∀ m ∈ ms, 1 ≤ m.msize)
    (htotal : ((ms.take k).map message_t.mdata).flatten.length ≤ MAX_ALLOC)
    (hcount : min k ms.length * sizeof_region_t ≤ MAX_ALLOC) :
    ∃ len file regions region_count, save_kl_messages_to_file kl heap [] false k = pure (len, file) ∧
      convert_kl_messages_to_regions kl heap k = pure (regions, region_count) ∧
      Partitions (regions.take region_count) len ∧
      ∃ kl' heap' ys p, construct_kl_messages heap file regions region_count = pure (kl', heap') ∧
        Lists kl' heap' ys p (ms.take k) := by
  have hsizes' : ∀ m ∈ ms.take k, 1 ≤ m.msize := fun m hm => hsizes m (List.mem_of_mem_take hm)
  have hpackets : (ms.take k).flatMap (packet false) = ((ms.take k).map message_t.mdata).flatten := rfl
  obtain ⟨hpartitions, hread⟩ := fread_consecutive_regions hsizes' htotal
  have hsave := h.save_eq false k [] (hpackets ▸ htotal)
  have hlimit : MAX_ALLOC < 2147483648 := by decide
  have hconvert : convert_kl_messages_to_regions kl heap k =
      pure (consecutive_regions 0 ((ms.take k).map message_t.mdata), (ms.take k).length) := by
    have hloop := @convert_messages_eq (ms.take k) [] hsizes' (Nat.lt_of_le_of_lt htotal hlimit) (by
      rw [List.length_nil, Nat.zero_add, List.length_take]
      exact hcount)
    rw [convert_kl_messages_to_regions, h.for_messages_eq]
    change (ms.take k).foldlM convert_message ([], 0) >>= _ = _
    have hstart : (consecutive_regions 0 [], (([] : List (List UInt8)).flatten.length : Int)) = ([], 0) := rfl
    rw [hstart, List.nil_append] at hloop
    rw [hloop, pure_bind]
    dsimp only
    rw [length_consecutive_regions, List.length_map]
  have hall : (consecutive_regions 0 ((ms.take k).map message_t.mdata)).take (ms.take k).length =
      consecutive_regions 0 ((ms.take k).map message_t.mdata) := by
    refine List.take_of_length_le (Nat.le_of_eq ?_)
    rw [length_consecutive_regions, List.length_map]
  refine ⟨_, _, _, _, hsave, hconvert, ?_, ?_⟩
  · rw [hall, hpackets]
    exact hpartitions
  · obtain ⟨kl', heap', ys, p, hconstruct, hlists⟩ := @construct_kl_messages_eq
      (consecutive_regions 0 ((ms.take k).map message_t.mdata)) (ms.take k).length
      (fun region hregion => hpartitions.allocatable (hall ▸ hregion)) heap
      (write_over [] ((ms.take k).flatMap (packet false)))
    refine ⟨kl', heap', ys, p, hconstruct, ?_⟩
    rw [hall, write_over, List.drop_nil, List.append_nil, hpackets, hread] at hlists
    exact hlists

/-- The loop returns only if there is room for all regions. -/
theorem returns_convert_messages {ms : List message_t} {acc out : List region_t × Int}
    (hacc : acc.1.length * sizeof_region_t ≤ MAX_ALLOC) (h : Returns (ms.foldlM convert_message acc) out) :
    (acc.1.length + ms.length) * sizeof_region_t ≤ MAX_ALLOC := by
  induction ms generalizing acc with
  | nil => exact hacc
  | cons m ms ih =>
    rw [List.foldlM_cons] at h
    obtain ⟨acc', hconvert, h⟩ := returns_bind h
    obtain ⟨_, hcheck, hconvert⟩ := returns_bind hconvert
    dsimp only at hconvert
    split at hconvert
    · exact absurd hconvert not_returns_fail
    · have hlength : acc'.1.length = acc.1.length + 1 := by
        rw [returns_pure hconvert]
        exact List.length_append
      have hrest := ih (hlength ▸ returns_ALLOC_CHECK_SIZE hcheck) h
      rw [hlength] at hrest
      rw [List.length_cons, Nat.add_comm ms.length, ← Nat.add_assoc]
      exact hrest

/-- The conversion returns only if the array of the regions can be allocated. -/
theorem Lists.returns_convert {kl : klist_lms} {heap : Heap message_t} {xs : List Nat} {t : Nat} {ms : List message_t}
    {k : Nat} (hlists : Lists kl heap xs t ms) {r : List region_t × Nat}
    (h : Returns (convert_kl_messages_to_regions kl heap k) r) : min k ms.length * sizeof_region_t ≤ MAX_ALLOC := by
  rw [convert_kl_messages_to_regions, hlists.for_messages_eq] at h
  obtain ⟨_, hloop, _⟩ := returns_bind h
  have hroom := returns_convert_messages (Nat.zero_le _) hloop
  rw [List.length_nil, Nat.zero_add, List.length_take] at hroom
  exact hroom

/-- A message of zeros. -/
def zero_message (msize : Nat) : message_t :=
  { mdata := List.replicate msize 0, msize, sized := List.length_replicate.symm }

theorem length_zero_messages (n msize : Nat) :
    ((List.replicate n (zero_message msize)).map message_t.mdata).flatten.length = n * msize := by
  rw [List.map_replicate, List.length_flatten, List.map_replicate, List.sum_replicate_nat, zero_message,
    List.length_replicate]

/-- Messages of more than 1 GiB are not written. More than 2^25 messages have no
regions. -/
theorem no_round_trip_beyond_limits :
    (∃ kl heap xs t ms, Lists kl heap xs t ms ∧ (∀ m ∈ ms, 1 ≤ m.msize) ∧
      (ms.map message_t.mdata).flatten.length < 2147483648 ∧
      ∀ r, ¬ Returns (save_kl_messages_to_file kl heap [] false 3) r) ∧
    ∃ kl heap xs t ms, Lists kl heap xs t ms ∧ (∀ m ∈ ms, 1 ≤ m.msize) ∧
      (ms.map message_t.mdata).flatten.length < 2147483648 ∧
      ∀ r, ¬ Returns (convert_kl_messages_to_regions kl heap 33554433) r := by
  have hsizes : ∀ n msize, 1 ≤ msize → ∀ m ∈ List.replicate n (zero_message msize), 1 ≤ m.msize := by
    intro n msize hpos m hm
    rw [List.eq_of_mem_replicate hm]
    exact hpos
  have hlimit : MAX_ALLOC = 1073741824 := rfl
  constructor
  · obtain ⟨kl, heap, xs, t, hlists⟩ := exists_lists (List.replicate 3 (zero_message 500000000))
    refine ⟨kl, heap, xs, t, _, hlists, hsizes _ _ (by omega), ?_, fun r hsave => ?_⟩
    · rw [length_zero_messages]
      omega
    · have hmax := hlists.returns_save hsave
      rw [List.take_of_length_le (Nat.le_of_eq List.length_replicate)] at hmax
      change ((List.replicate 3 (zero_message 500000000)).map message_t.mdata).flatten.length ≤ MAX_ALLOC at hmax
      rw [length_zero_messages] at hmax
      omega
  · obtain ⟨kl, heap, xs, t, hlists⟩ := exists_lists (List.replicate 33554433 (zero_message 1))
    refine ⟨kl, heap, xs, t, _, hlists, hsizes _ _ (Nat.le_refl 1), ?_, fun r hconvert => ?_⟩
    · rw [length_zero_messages]
      omega
    · have hmax := hlists.returns_convert hconvert
      rw [List.length_replicate, sizeof_region_t] at hmax
      omega

/-- Two messages, of which one is written. -/
theorem round_trip_of_one_message : ∃ kl heap len file regions region_count,
    save_kl_messages_to_file kl heap [] false 1 = pure (len, file) ∧
      convert_kl_messages_to_regions kl heap 1 = pure (regions, region_count) ∧
      Partitions (regions.take region_count) len := by
  obtain ⟨kl, heap, xs, t, hlists⟩ := exists_lists [⟨[65, 66], 2, rfl⟩, ⟨[67], 1, rfl⟩]
  obtain ⟨len, file, regions, region_count, hsave, hconvert, hpartitions, _⟩ :=
    hlists.queue_entry_round_trip 1 (by decide) (by decide) (by decide)
  exact ⟨kl, heap, len, file, regions, region_count, hsave, hconvert, hpartitions⟩

end aflnet
