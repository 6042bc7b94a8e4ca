import AflnetLegion.Mutation.Havoc

open Draws

namespace aflnet

section draws

variable {x : Int} {limit : Nat} {env : Surroundings}

theorem cast_u32 (hnonneg : 0 ≤ x) (hlt : x < 4294967296) : (u32 x : Int) = x := by
  rw [u32, Int.emod_eq_of_lt hnonneg hlt, Int.toNat_of_nonneg hnonneg]

/-- `UR` of a limit that is not 0 gives a number below it. -/
theorem always_UR (h : 0 < limit) : Always (fuzz_one.UR limit) fun n => n < limit := Always.below h

/-- The limit may be the value of an expression that fits in a `u32`. -/
theorem always_UR_u32 (hpos : 0 < x) (hlt : x < 4294967296) : Always (fuzz_one.UR (u32 x)) fun n => (n : Int) < x := by
  have hvalue := cast_u32 (Int.le_of_lt hpos) hlt
  exact (always_UR (by omega)).mono fun n hn => by omega

theorem MAX_FILE_eq : MAX_FILE = 1048576 := rfl

theorem HAVOC_BLK_XL_eq : HAVOC_BLK_XL = 32768 := rfl

namespace Surroundings

theorem always_choose_block_range (env : Surroundings) :
    Always env.choose_block_range fun range => 1 ≤ range.1 ∧ range.1 ≤ range.2 ∧ range.2 ≤ HAVOC_BLK_XL := by
  have hcycle := env.cycle
  refine (always_UR (by split <;> omega)).bind fun n _ => ?_
  split
  · exact Always.pure (by decide)
  · exact Always.pure (by decide)
  · refine (always_UR (by decide)).bind fun large _ => Always.pure ?_
    split <;> decide

/-- A length from 1 to the limit. -/
theorem always_choose_block_len (env : Surroundings) (hpos : 1 ≤ limit) (hmax : limit ≤ MAX_FILE) :
    Always (env.choose_block_len limit) fun len => 1 ≤ len ∧ len ≤ limit ∧ len ≤ HAVOC_BLK_XL := by
  refine (always_choose_block_range env).bind fun range hrange => ?_
  obtain ⟨hfirst, hle, hxl⟩ := hrange
  have hmin : 1 ≤ (if range.1 ≥ limit then 1 else range.1) ∧ (if range.1 ≥ limit then 1 else range.1) ≤ min range.2 limit := by
    split <;> omega
  generalize (if range.1 ≥ limit then 1 else range.1) = min_value at hmin
  rw [MAX_FILE_eq] at hmax
  refine (always_UR_u32 (by omega) (by omega)).bind fun n hn => Always.pure ?_
  omega

theorem length_fread_region (file : List UInt8) (start_byte : Int) (len : Nat) :
    (fread_region file start_byte len).length = len := by
  simp [fread_region]

/-- A region is never empty, and never longer than a file. -/
theorem always_choose_source_region (env : Surroundings) : Always env.choose_source_region fun region =>
    ∀ bytes, region = some bytes → 1 ≤ bytes.length ∧ bytes.length ≤ MAX_FILE := by
  refine (always_UR (List.length_pos_of_ne_nil env.queued)).bind fun index hindex => ?_
  rw [List.getElem?_eq_getElem hindex]
  dsimp only
  split
  · exact Always.pure fun _ hnone => by cases hnone
  · rename_i hcount
    refine (always_UR (Nat.pos_of_ne_zero hcount)).bind fun reg_index hreg => ?_
    have hin := Nat.lt_of_lt_of_le hreg env.queue[index].allocated
    have hlive : env.queue[index].live_regions[reg_index]? = some env.queue[index].regions[reg_index] := by
      rw [queue_entry.live_regions, List.getElem?_take_of_lt hreg, List.getElem?_eq_getElem hin]
    have hlen := env.regions _ (List.getElem_mem hindex) _ (List.mem_of_getElem? hlive)
    rw [List.getElem?_eq_getElem hin]
    dsimp only
    split
    · rename_i hle
      refine (Always.require (Nat.ne_of_gt hlen)).bind fun _ _ => Always.pure fun bytes hbytes => ?_
      cases hbytes
      rw [length_fread_region]
      exact ⟨hlen, hle⟩
    · exact Always.pure fun _ hnone => by cases hnone

theorem always_prefers_auto (env : Surroundings) (h : env.extras.length + env.a_extras.length ≠ 0) :
    Always env.prefers_auto fun auto => 0 < (if auto then env.a_extras else env.extras).length := by
  rw [prefers_auto]
  split
  · exact Always.pure (by simp; omega)
  · split
    · refine (always_UR (by decide)).bind fun coin _ => Always.pure ?_
      split <;> omega
    · exact Always.pure (by simp; omega)

/-- A token from one of the two lists. -/
theorem always_choose_extra (env : Surroundings) (h : env.extras.length + env.a_extras.length ≠ 0) :
    Always env.choose_extra fun extra => extra.length ≤ MAX_DICT_FILE := by
  refine (env.always_prefers_auto h).bind fun auto hauto => ?_
  refine (always_UR hauto).bind fun use_extra huse => ?_
  rw [List.getElem?_eq_getElem huse]
  refine Always.pure (env.tokens _ ?_)
  cases auto with
  | true => exact List.mem_append_right _ (List.getElem_mem huse)
  | false => exact List.mem_append_left _ (List.getElem_mem huse)

end Surroundings

end draws

namespace Havoc

/-- What holds of the buffer at any time: at least one byte is in use, no more than a file may
have, and no more than is allocated. -/
structure Inside (s : Havoc) : Prop where
  nonempty : 1 ≤ s.temp_len
  bounded : s.temp_len ≤ MAX_FILE
  allocated : s.temp_len ≤ s.out_buf.length

section operations

variable {s : Havoc} {env : Surroundings} {buf dst src bytes : List UInt8} {pos start n size limit : Nat}

theorem Inside.of_length (h : s.Inside) (hlength : buf.length = s.out_buf.length) : Inside { s with out_buf := buf } :=
  ⟨h.nonempty, h.bounded, hlength ▸ h.allocated⟩

theorem inside_mk {temp_len : Int} (hpos : 1 ≤ temp_len) (hmax : temp_len ≤ 1048576) (halloc : temp_len ≤ buf.length) :
    Inside { out_buf := buf, temp_len } := ⟨hpos, hmax, halloc⟩

/-- In use there are at most as many bytes as a file may have. -/
theorem Inside.bounds (h : s.Inside) : 1 ≤ s.temp_len ∧ s.temp_len ≤ 1048576 ∧ s.temp_len ≤ s.out_buf.length :=
  ⟨h.nonempty, h.bounded, h.allocated⟩

/-- The sum that is compared with `MAX_FILE` does not wrap around. -/
theorem Inside.room (h : s.Inside) {n : Nat} (hn : n ≤ MAX_FILE) (hroom : ¬u32 (s.temp_len + n) ≥ MAX_FILE) :
    s.temp_len + n < 1048576 := by
  have hbounds := h.bounds
  rw [MAX_FILE_eq] at hn hroom
  have hsize := cast_u32 (x := s.temp_len + n) (by omega) (by omega)
  omega

theorem length_ck_alloc_nozero (n : Nat) : (ck_alloc_nozero n).length = n := List.length_replicate ..

theorem flip_bit_inside (h : s.Inside) : Always s.flip_bit Inside := by
  have hbounds := h.bounds
  refine (always_UR_u32 (by omega) (by omega)).bind fun b hb => ?_
  refine (Always.require (by omega)).bind fun _ _ => Always.pure ?_
  exact h.of_length (length_FLIP_BIT _ _)

/-- A byte of the buffer in use is changed, whatever the change is. -/
theorem change_byte_inside (h : s.Inside) (hlimit : 0 < limit) (change : UInt8 → Nat → UInt8) :
    Always (s.change_byte limit change) Inside := by
  have hbounds := h.bounds
  refine (always_UR_u32 (by omega) (by omega)).bind fun pos hpos => (always_UR hlimit).bind fun n _ => ?_
  refine (Always.require (by omega)).bind fun _ _ => Always.pure ?_
  exact h.of_length (List.length_modify ..)

/-- A word of the buffer in use is changed. A buffer that is too short for it is left alone. -/
theorem change_word_inside (h : s.Inside) (hsize : 1 ≤ size) (hlimit : 0 < limit) (change : Bool → BitVec 32 → Nat → BitVec 32) :
    Always (s.change_word size limit change) Inside := by
  have hbounds := h.bounds
  rw [change_word]
  split
  · exact Always.pure h
  · refine (always_UR (by decide)).bind fun little _ => ?_
    refine (always_UR_u32 (by omega) (by omega)).bind fun pos hpos => (always_UR hlimit).bind fun n _ => ?_
    refine (Blocks.always_read (by omega)).bind fun bytes _ => ?_
    refine (Blocks.always_write (by rw [Words.length_store]; omega)).bind fun out_buf hout => Always.pure ?_
    exact h.of_length hout

theorem delete_bytes_inside (h : s.Inside) : Always (s.delete_bytes env) Inside := by
  have hbounds := h.bounds
  rw [delete_bytes]
  split
  · exact Always.pure h
  · have hlimit := cast_u32 (x := s.temp_len - 1) (by omega) (by omega)
    refine (env.always_choose_block_len (by omega) (by rw [MAX_FILE_eq]; omega)).bind fun del_len hdel => ?_
    refine (always_UR_u32 (by omega) (by omega)).bind fun del_from hfrom => ?_
    have hmoved := cast_u32 (x := s.temp_len - del_from - del_len) (by omega) (by omega)
    refine (Blocks.always_copy (by omega) (by omega)).bind fun out_buf hout => Always.pure ?_
    exact inside_mk (by omega) (by omega) (by omega)

theorem fill_byte_always (h : s.Inside) : Always s.fill_byte fun _ => True := by
  have hbounds := h.bounds
  refine (always_UR (by decide)).bind fun coin _ => ?_
  split
  · exact (always_UR (by decide)).bind fun value _ => Always.pure trivial
  · refine (always_UR_u32 (by omega) (by omega)).bind fun pos hpos => ?_
    exact (Blocks.always_read (by omega)).bind fun bytes _ => Always.pure trivial

/-- A clone that is taken from the buffer lies within it. -/
theorem choose_clone_always (h : s.Inside) (actually_clone : Nat) : Always (choose_clone env s actually_clone) fun clone =>
    1 ≤ clone.2 ∧ clone.2 ≤ HAVOC_BLK_XL ∧ (actually_clone ≠ 0 → clone.1 + clone.2 ≤ s.temp_len) := by
  have hbounds := h.bounds
  rw [choose_clone]
  split
  · have hlimit := cast_u32 (x := s.temp_len) (by omega) (by omega)
    refine (env.always_choose_block_len (by omega) (by rw [MAX_FILE_eq]; omega)).bind fun clone_len hlen => ?_
    refine (always_UR_u32 (by omega) (by omega)).bind fun clone_from hfrom => Always.pure ⟨hlen.1, hlen.2.2, fun _ => ?_⟩
    dsimp only
    omega
  · rename_i hno
    refine (env.always_choose_block_len (by decide) (by decide)).bind fun clone_len hlen => Always.pure ?_
    exact ⟨hlen.1, hlen.2.2, fun hyes => absurd hyes hno⟩

theorem insert_clone_always (h : s.Inside) {actually_clone clone_to clone_from clone_len : Nat}
    (hfrom : actually_clone ≠ 0 → clone_from + clone_len ≤ s.temp_len) (hto : clone_to + clone_len ≤ buf.length) :
    Always (s.insert_clone actually_clone buf clone_to clone_from clone_len) fun result => result.length = buf.length := by
  have hbounds := h.bounds
  rw [insert_clone]
  split
  · rename_i hyes
    have hsrc := hfrom hyes
    exact Blocks.always_copy (by omega) hto
  · exact (fill_byte_always h).bind fun byte _ => Blocks.always_fill byte hto

theorem clone_bytes_inside (h : s.Inside) : Always (s.clone_bytes env) Inside := by
  have hbounds := h.bounds
  rw [clone_bytes]
  split
  · rename_i hroom
    rw [MAX_FILE_eq, HAVOC_BLK_XL_eq] at hroom
    refine (always_UR (by decide)).bind fun actually_clone _ => ?_
    refine (choose_clone_always h actually_clone).bind fun clone hclone => ?_
    obtain ⟨hpos, hxl, hfrom⟩ := hclone
    rw [HAVOC_BLK_XL_eq] at hxl
    refine (always_UR_u32 (by omega) (by omega)).bind fun clone_to hto => ?_
    have hsize := cast_u32 (x := s.temp_len + clone.2) (by omega) (by omega)
    have htail := cast_u32 (x := s.temp_len - clone_to) (by omega) (by omega)
    have halloc := length_ck_alloc_nozero (u32 (s.temp_len + clone.2))
    refine (Blocks.always_copy (by omega) (by omega)).bind fun head hhead => ?_
    refine (insert_clone_always h hfrom (by omega)).bind fun inserted hinserted => ?_
    refine (Blocks.always_copy (by omega) (by omega)).bind fun out_buf hout => Always.pure ?_
    exact inside_mk (by omega) (by omega) (by omega)
  · exact Always.pure h

theorem overwrite_chunk_always (h : s.Inside) {copy_to copy_from copy_len : Nat} (hto : copy_to + copy_len ≤ s.temp_len)
    (hfrom : copy_from + copy_len ≤ s.temp_len) :
    Always (s.overwrite_chunk copy_to copy_from copy_len) fun result => result.length = s.out_buf.length := by
  have hbounds := h.bounds
  refine (always_UR (by decide)).bind fun moved _ => ?_
  split
  · split
    · exact Blocks.always_copy (by omega) (by omega)
    · exact Always.pure rfl
  · exact (fill_byte_always h).bind fun byte _ => Blocks.always_fill byte (by omega)

theorem overwrite_bytes_inside (h : s.Inside) : Always (s.overwrite_bytes env) Inside := by
  have hbounds := h.bounds
  rw [overwrite_bytes]
  split
  · exact Always.pure h
  · have hlimit := cast_u32 (x := s.temp_len - 1) (by omega) (by omega)
    refine (env.always_choose_block_len (by omega) (by rw [MAX_FILE_eq]; omega)).bind fun copy_len hlen => ?_
    refine (always_UR_u32 (by omega) (by omega)).bind fun copy_from hfrom => ?_
    refine (always_UR_u32 (by omega) (by omega)).bind fun copy_to hto => ?_
    refine (overwrite_chunk_always h (by omega) (by omega)).bind fun out_buf hout => Always.pure ?_
    exact h.of_length hout

theorem overwrite_extra_inside (h : s.Inside) : Always (s.overwrite_extra env) Inside := by
  have hbounds := h.bounds
  rw [overwrite_extra]
  split
  · exact Always.pure h
  · rename_i hextras
    refine (env.always_choose_extra hextras).bind fun extra _ => ?_
    have hlen := cast_u32 (x := s.temp_len) (by omega) (by omega)
    split
    · exact Always.pure h
    · refine (always_UR_u32 (by omega) (by omega)).bind fun insert_at hat => ?_
      refine (Blocks.always_copy (by omega) (by omega)).bind fun out_buf hout => Always.pure ?_
      exact h.of_length hout

/-- A block is inserted if the sum of the lengths is below the limit of a file. -/
theorem insert_block_inside (h : s.Inside) {insert_at : Nat} {block : List UInt8} (hat : insert_at ≤ s.temp_len)
    (hroom : s.temp_len + block.length < 1048576) : Always (s.insert_block insert_at block) Inside := by
  have hbounds := h.bounds
  have hsize := cast_u32 (x := s.temp_len + block.length) (by omega) (by omega)
  have htail := cast_u32 (x := s.temp_len - insert_at) (by omega) (by omega)
  have halloc := length_ck_alloc_nozero (u32 (s.temp_len + block.length))
  refine (Blocks.always_copy (by omega) (by omega)).bind fun head hhead => ?_
  refine (Blocks.always_copy (by omega) (by omega)).bind fun inserted hinserted => ?_
  refine (Blocks.always_copy (by omega) (by omega)).bind fun out_buf hout => Always.pure ?_
  exact inside_mk (by omega) (by omega) (by omega)

theorem insert_extra_inside (h : s.Inside) : Always (s.insert_extra env) Inside := by
  have hbounds := h.bounds
  rw [insert_extra]
  split
  · exact Always.pure h
  · rename_i hextras
    refine (always_UR_u32 (by omega) (by omega)).bind fun insert_at hat => ?_
    refine (env.always_choose_extra hextras).bind fun extra hextra => ?_
    split
    · exact Always.pure h
    · rename_i hroom
      exact insert_block_inside h (by omega) (h.room (Nat.le_trans hextra (by decide)) hroom)

theorem replace_region_inside (h : s.Inside) : Always (s.replace_region env) Inside := by
  refine env.always_choose_source_region.bind fun region hregion => ?_
  cases region with
  | none => exact Always.pure h
  | some new_buf =>
    obtain ⟨hpos, hmax⟩ := hregion new_buf rfl
    rw [MAX_FILE_eq] at hmax
    exact Always.pure (inside_mk (by omega) (by omega) (by omega))

/-- The two parts fit into the new buffer, which is what the limit is compared with. -/
theorem join_inside {first second : List UInt8} {first_len second_len : Nat} (hfirst : first_len ≤ first.length)
    (hsecond : second_len ≤ second.length) (hpos : 1 ≤ first_len) (hroom : first_len + second_len < 1048576) :
    Always (join first second first_len second_len) Inside := by
  have hsize := cast_u32 (x := first_len + second_len) (by omega) (by omega)
  have halloc := length_ck_alloc_nozero (u32 (first_len + second_len))
  refine (Blocks.always_copy (by omega) (by omega)).bind fun head hhead => ?_
  refine (Blocks.always_copy (by omega) (by omega)).bind fun out_buf hout => Always.pure ?_
  exact inside_mk (by omega) (by omega) (by omega)

theorem prepend_region_inside (h : s.Inside) : Always (s.prepend_region env) Inside := by
  have hbounds := h.bounds
  refine env.always_choose_source_region.bind fun region hregion => ?_
  cases region with
  | none => exact Always.pure h
  | some src_region =>
    obtain ⟨hpos, hmax⟩ := hregion src_region rfl
    have hlen := cast_u32 (x := s.temp_len) (by omega) (by omega)
    dsimp only
    split
    · exact Always.pure h
    · rename_i hfits
      have hroom := h.room hmax hfits
      exact join_inside (Nat.le_refl _) (by omega) hpos (by omega)

theorem append_region_inside (h : s.Inside) : Always (s.append_region env) Inside := by
  have hbounds := h.bounds
  refine env.always_choose_source_region.bind fun region hregion => ?_
  cases region with
  | none => exact Always.pure h
  | some src_region =>
    obtain ⟨hpos, hmax⟩ := hregion src_region rfl
    have hlen := cast_u32 (x := s.temp_len) (by omega) (by omega)
    dsimp only
    split
    · exact Always.pure h
    · rename_i hfits
      have hroom := h.room hmax hfits
      exact join_inside (by omega) (Nat.le_refl _) (by omega) (by omega)

theorem duplicate_region_inside (h : s.Inside) : Always s.duplicate_region Inside := by
  have hbounds := h.bounds
  have hlen := cast_u32 (x := s.temp_len) (by omega) (by omega)
  rw [duplicate_region]
  split
  · exact Always.pure h
  · rename_i hroom
    rw [MAX_FILE_eq] at hroom
    exact join_inside (by omega) (by omega) (by omega) (by omega)

/-- Each of the operations stays inside. -/
theorem operation_inside (env : Surroundings) (h : s.Inside) : Always (s.operation env) Inside := by
  refine (always_UR (by split <;> decide)).bind fun n _ => ?_
  split
  · exact flip_bit_inside h
  · exact change_byte_inside h (by decide) _
  · exact change_word_inside h (by decide) (by decide) _
  · exact change_word_inside h (by decide) (by decide) _
  · exact change_byte_inside h (by decide) _
  · exact change_byte_inside h (by decide) _
  · exact change_word_inside h (by decide) (by decide) _
  · exact change_word_inside h (by decide) (by decide) _
  · exact change_word_inside h (by decide) (by decide) _
  · exact change_word_inside h (by decide) (by decide) _
  · exact change_byte_inside h (by decide) _
  · exact delete_bytes_inside h
  · exact delete_bytes_inside h
  · exact clone_bytes_inside h
  · exact overwrite_bytes_inside h
  · exact overwrite_extra_inside h
  · exact insert_extra_inside h
  · exact replace_region_inside h
  · exact prepend_region_inside h
  · exact append_region_inside h
  · exact duplicate_region_inside h
  · exact Always.pure h

end operations

/-- The buffer is as it was at the start, with what else is allocated behind it. A round ends in
such a state. -/
structure Restored (in_buf : List UInt8) (s : Havoc) : Prop where
  temp_len : s.temp_len = in_buf.length
  allocated : in_buf.length ≤ s.out_buf.length
  bytes : s.out_buf.take in_buf.length = in_buf

section stage

variable {s : Havoc} {in_buf : List UInt8}

theorem length_ck_realloc (buf : List UInt8) (n : Nat) : (ck_realloc buf n).length = n := by
  simp [ck_realloc]
  omega

/-- The restored buffer holds the bytes of the start, whatever the operations have left. -/
theorem restore_always (h : s.Inside) : Always (s.restore in_buf) (Restored in_buf) := by
  have hbounds := h.bounds
  have hroom : in_buf.length ≤ (if s.temp_len < in_buf.length then ck_realloc s.out_buf in_buf.length else s.out_buf).length := by
    split
    · exact Nat.le_of_eq (length_ck_realloc _ _).symm
    · omega
  rw [restore]
  generalize (if s.temp_len < in_buf.length then ck_realloc s.out_buf in_buf.length else s.out_buf) = grown at hroom
  rw [memcpy, Blocks.copy_all_eq hroom]
  exact Always.pure ⟨rfl, by simp, List.take_left⟩

theorem Restored.inside (h : s.Restored in_buf) (hpos : 1 ≤ in_buf.length) (hmax : in_buf.length ≤ MAX_FILE) : s.Inside where
  nonempty := by rw [h.temp_len]; exact Int.ofNat_le.mpr hpos
  bounded := by rw [h.temp_len]; exact Int.ofNat_le.mpr hmax
  allocated := by rw [h.temp_len]; exact Int.ofNat_le.mpr h.allocated

/-- A round may begin with any buffer inside and ends with a restored one. -/
theorem fuzz_round_always (env : Surroundings) (h : s.Inside) : Always (s.fuzz_round in_buf env) (Restored in_buf) := by
  refine (always_UR (by decide)).bind fun pow2 _ => ?_
  exact (Always.rounds (fun _ ht => operation_inside env ht) _ h).bind fun _ ht => restore_always ht

theorem restored_start (in_buf : List UInt8) : (start in_buf).Restored in_buf := ⟨rfl, Nat.le_refl _, List.take_length⟩

theorem havoc_stage_always (hpos : 1 ≤ in_buf.length) (hmax : in_buf.length ≤ MAX_FILE) (envs : List Surroundings) :
    Always (havoc_stage in_buf envs (start in_buf)) (Restored in_buf) :=
  Always.foldlM (fun env _ _ ht => fuzz_round_always env (ht.inside hpos hmax)) (restored_start in_buf)

/-- After any rounds of the stage, none of which fails, the buffer is restored, and it stays
inside for any number of operations of the next round. -/
theorem havoc_stays_inside (hpos : 1 ≤ in_buf.length) (hmax : in_buf.length ≤ MAX_FILE) (envs : List Surroundings) :
    Always (havoc_stage in_buf envs (start in_buf)) (fun s => s.Inside ∧ s.Restored in_buf) ∧
      ∀ (env : Surroundings) (k : Nat),
        Always (havoc_stage in_buf envs (start in_buf) >>= rounds (fun s => s.operation env) k) Inside := by
  have hstage := havoc_stage_always hpos hmax envs
  refine ⟨hstage.mono fun s hs => ⟨hs.inside hpos hmax, hs⟩, fun env k => hstage.bind fun s hs => ?_⟩
  exact Always.rounds (fun _ ht => operation_inside env ht) k (hs.inside hpos hmax)

/-- A queue with one seed of one region, and a token. -/
def one_region : Surroundings where
  queue := [.of_regions "id:000000" [.annotated 0 3 [220]]]
  file := fun _ => [65, 66, 67, 10]
  extras := [[85, 83, 69, 82]]
  a_extras := []
  region_level_mutation := true
  queue_cycle := 1
  run_over10m := false
  queued := List.cons_ne_nil _ _
  regions := by decide
  tokens := by decide
  cycle := Nat.le_refl 1

theorem havoc_of_one_region :
    Always (havoc_stage [65, 66, 67, 10] [one_region] (start [65, 66, 67, 10]))
      (fun s => s.Inside ∧ s.Restored [65, 66, 67, 10]) ∧
      ∀ (env : Surroundings) (k : Nat),
        Always (havoc_stage [65, 66, 67, 10] [one_region] (start [65, 66, 67, 10]) >>= rounds (fun s => s.operation env) k) Inside :=
  havoc_stays_inside (by decide) (by decide) [one_region]

end stage

end Havoc

end aflnet
