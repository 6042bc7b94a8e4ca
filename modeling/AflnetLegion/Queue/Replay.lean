import AflnetLegion.Messages.Construct
import AflnetLegion.Protocol.Responses
import AflnetLegion.Queue.Preprocess

open Checked

namespace aflnet

open mcts

/-- Each message has the bytes of its own region, so that what is replayed is what the regions
say. -/
def ReplaysOwn (file : List UInt8) (regions : List region_t) (ms : List message_t) : Prop :=
  ms.length = regions.length ∧ ∀ (k : Nat) (region : region_t) (m : message_t), regions[k]? = some region →
    ms[k]? = some m → m.mdata = Tiling.slice file region.piece.1 region.piece.2

/-- A file in which the messages read one after the other are the regions. -/
theorem replays_own_iff {file : List UInt8} {regions : List region_t}
    (hlen : ∀ region ∈ regions, region_len region region = region.piece.2)
    (hfile : (regions.map fun region => region.piece.2).sum ≤ file.length) :
    ReplaysOwn file regions (fread_messages regions file) ↔ ∀ (k : Nat) (region : region_t), regions[k]? = some region →
      Tiling.slice file (((regions.map fun region => region.piece.2).take k).sum) region.piece.2 =
        Tiling.slice file region.piece.1 region.piece.2 := by
  have hlens : (regions.map fun region => region_len region region) = regions.map fun region => region.piece.2 :=
    List.map_congr_left hlen
  have hmessages := fread_messages_eq (hlens ▸ hfile)
  rw [hlens] at hmessages
  have hread : ∀ (k : Nat) (region : region_t), regions[k]? = some region → ∃ m, (fread_messages regions file)[k]? = some m ∧
      m.mdata = Tiling.slice file (((regions.map fun region => region.piece.2).take k).sum) region.piece.2 := by
    intro k region hk
    have hget := congrArg (fun l => l[k]?) hmessages
    simp only [List.getElem?_map, Tiling.getElem?_reads, hk, Option.map_some] at hget
    obtain ⟨m, hm, heq⟩ := Option.map_eq_some_iff.mp hget
    exact ⟨m, hm, heq⟩
  constructor
  · rintro ⟨_, hown⟩ k region hk
    obtain ⟨m, hm, heq⟩ := hread k region hk
    rw [← heq]
    exact hown k region m hk hm
  · intro hslices
    refine ⟨length_fread_messages regions file, fun k region m hk hm => ?_⟩
    obtain ⟨m', hm', heq⟩ := hread k region hk
    rw [hm] at hm'
    cases hm'
    rw [heq]
    exact hslices k region hk

/-- Region `k` of the entry is annotated in the end: its message was answered, or it
was not sent and the region had an annotation. -/
def Responses.Keeps (responses : Responses) (q : queue_entry) (k : Nat) : Prop :=
  ∃ region, q.live_regions[k]? = some region ∧
    (responses.Answered k ∨ (responses.response_bytes.length ≤ k ∧ region.state_sequence ≠ none))

section

variable (extractor : CodeExtractor) (responses : Responses) {q : queue_entry} {size : Nat}

theorem piece_annotated_region (k : Nat) (region : region_t) :
    (annotated_region extractor responses k region).piece = region.piece := by
  obtain ⟨hstart, hend⟩ := bytes_annotated_region extractor responses k region
  rw [region_t.piece, region_t.piece, hstart, hend]

/-- The pieces of all regions, before and after they are annotated. -/
theorem map_piece_annotated_region (regions : List region_t) :
    (regions.mapIdx (annotated_region extractor responses)).map region_t.piece = regions.map region_t.piece := by
  refine List.ext_getElem? fun k => ?_
  rw [List.getElem?_map, List.getElem?_mapIdx, List.getElem?_map, Option.map_map]
  congr 1
  funext region
  exact piece_annotated_region extractor responses k region

/-- A kept region is where it was. -/
theorem mem_kept_regions {region : region_t} (hkept : region ∈ kept_regions extractor responses q) :
    ∃ old ∈ q.live_regions, region.start_byte = old.start_byte ∧ region.end_byte = old.end_byte := by
  obtain ⟨annotated, hannotated, rfl⟩ := List.mem_map.mp hkept
  obtain ⟨k, hk, rfl⟩ := List.mem_mapIdx.mp (List.mem_filter.mp hannotated).1
  exact ⟨_, List.getElem_mem hk, bytes_annotated_region extractor responses k q.live_regions[k]⟩

/-- The kept regions can be allocated and lie within the file. -/
theorem kept_proper (hregions : Partitions q.live_regions size) {region : region_t}
    (hkept : region ∈ kept_regions extractor responses q) : Allocatable region ∧
      region_len region region = region.piece.2 ∧ region.piece.1 + region.piece.2 ≤ size := by
  obtain ⟨old, hmem, hstart, hend⟩ := mem_kept_regions extractor responses hkept
  have hlen : region_len region region = region_len old old := by rw [region_len, region_len, hstart, hend]
  have hpiece : region.piece = old.piece := by rw [region_t.piece, region_t.piece, hstart, hend]
  rw [Allocatable, hlen, hpiece]
  exact ⟨hregions.allocatable hmem, hregions.len_eq hmem, (hregions.tiles.bounds (List.mem_map_of_mem hmem)).2⟩

theorem is_annotated_iff_keeps {k : Nat} {region : region_t} (hk : q.live_regions[k]? = some region) :
    (annotated_region extractor responses k region).is_annotated = true ↔ responses.Keeps q k := by
  rw [is_annotated_annotated_region, region_t.is_annotated_iff, Responses.Keeps]
  constructor
  · exact fun hcase => ⟨region, hk, hcase⟩
  · rintro ⟨other, hother, hcase⟩
    rw [hk] at hother
    cases hother
    exact hcase

/-- The kept regions are read in place if and only if they are the first ones. -/
theorem kept_in_place_iff (hregions : Partitions q.live_regions size) :
    (∀ (k : Nat) (region : region_t), (kept_regions extractor responses q)[k]? = some region →
      (((kept_regions extractor responses q).map fun region => region.piece.2).take k).sum = region.piece.1) ↔
    ∀ i j, i < j → responses.Keeps q j → responses.Keeps q i := by
  have htiles := hregions.tiles
  rw [← map_piece_annotated_region extractor responses] at htiles
  have hpos : ∀ region ∈ q.live_regions.mapIdx (annotated_region extractor responses), 0 < region.piece.2 := by
    intro region hregion
    obtain ⟨k, hk, rfl⟩ := List.mem_mapIdx.mp hregion
    rw [piece_annotated_region]
    exact hregions.len_pos (List.getElem_mem hk)
  have hlens : (kept_regions extractor responses q).map (fun region => region.piece.2) =
      ((q.live_regions.mapIdx (annotated_region extractor responses)).filter region_t.is_annotated).map
        fun region => region.piece.2 := by
    rw [kept_regions, List.map_map]
    rfl
  rw [hlens]
  refine Iff.trans ?_ ((htiles.read_in_place_iff region_t.is_annotated hpos).trans ?_)
  · rw [kept_regions]
    constructor
    · intro hplace k region hk
      exact hplace k region.truncate (by rw [List.getElem?_map, hk, Option.map_some])
    · intro hplace k region hk
      rw [List.getElem?_map] at hk
      obtain ⟨whole, hwhole, rfl⟩ := Option.map_eq_some_iff.mp hk
      exact hplace k whole hwhole
  · simp only [List.getElem?_mapIdx]
    constructor
    · rintro hlast i j hij ⟨y, hy, hcase⟩
      have hi : i < q.live_regions.length := Nat.lt_trans hij (List.getElem?_eq_some_iff.mp hy).1
      have hx := List.getElem?_eq_getElem hi
      refine (is_annotated_iff_keeps extractor responses hx).mp ?_
      exact hlast i j _ _ hij (by rw [hx, Option.map_some]) (by rw [hy, Option.map_some])
        ((is_annotated_iff_keeps extractor responses hy).mpr ⟨y, hy, hcase⟩)
    · intro hlast i j x y hij hx hy hkeep
      obtain ⟨x₀, hx₀, rfl⟩ := Option.map_eq_some_iff.mp hx
      obtain ⟨y₀, hy₀, rfl⟩ := Option.map_eq_some_iff.mp hy
      rw [is_annotated_iff_keeps extractor responses hx₀]
      exact hlast i j hij ((is_annotated_iff_keeps extractor responses hy₀).mp hkeep)

/-- The regions that are kept lie one after the other within the file. -/
theorem sum_kept_le (hregions : Partitions q.live_regions size) :
    ((kept_regions extractor responses q).map fun region => region.piece.2).sum ≤ size := by
  have htiles := hregions.tiles
  rw [← map_piece_annotated_region extractor responses] at htiles
  have hstop := htiles.stop_eq
  rw [Nat.zero_add, List.map_map] at hstop
  rw [hstop, kept_regions, List.map_map]
  exact Tiling.sum_filter_le _ _ _

end

/-- After `update_MCTS_tree` has annotated and preprocessed an entry, the messages
constructed from it are its own, whatever the bytes of its file are, if and only if
all regions that are kept come before all regions that are not. -/
theorem replayed_messages_are_own_iff {extractor : CodeExtractor} {responses : Responses} {q : queue_entry} {size : Nat}
    (hregions : Partitions q.live_regions size) (hconsistent : ∀ region ∈ q.live_regions, region.Consistent)
    (hsent : responses.response_bytes.length ≤ q.region_count) :
    ∃ q', annotate_and_preprocess extractor responses q = pure q' ∧
      ((∀ (heap : Heap message_t) (file : List UInt8), file.length = size → ∃ kl heap' xs t ms,
        construct_kl_messages heap file q'.regions q'.region_count = pure (kl, heap') ∧ Lists kl heap' xs t ms ∧
          ReplaysOwn file q'.live_regions ms) ↔
      ∀ i j, i < j → responses.Keeps q j → responses.Keeps q i) := by
  obtain ⟨q', heq, hlive⟩ := @annotate_and_preprocess_eq extractor responses q hconsistent hsent
  refine ⟨q', heq, ?_⟩
  rw [← kept_in_place_iff extractor responses hregions, ← hlive]
  have hkept : ∀ region ∈ q'.live_regions, Allocatable region ∧ region_len region region = region.piece.2 ∧
      region.piece.1 + region.piece.2 ≤ size := by
    intro region hregion
    rw [hlive] at hregion
    exact kept_proper extractor responses hregions hregion
  have hsum : (q'.live_regions.map fun region => region.piece.2).sum ≤ size := by
    rw [hlive]
    exact sum_kept_le extractor responses hregions
  have hallocatable : ∀ region ∈ q'.regions.take q'.region_count, Allocatable region :=
    fun region hregion => (hkept region hregion).1
  have hone : (0 : UInt8) ≠ 1 := by decide
  constructor
  · intro hall k region hk
    obtain ⟨halloc, hlen, hbound⟩ := hkept region (List.mem_of_getElem? hk)
    have hpos : 0 < region.piece.2 := hlen ▸ halloc.1
    refine (Tiling.slice_eq_forall_iff hone hpos hbound).mp fun file hfile => ?_
    obtain ⟨kl, heap', xs, t, ms, hconstruct, hlists, hown⟩ := hall ⟨[]⟩ file hfile
    obtain ⟨kl₁, heap₁, xs₁, t₁, hconstruct₁, hlists₁⟩ := construct_kl_messages_eq hallocatable ⟨[]⟩ file
    rw [hconstruct] at hconstruct₁
    cases pure_injective hconstruct₁
    rw [hlists.unique hlists₁] at hown
    exact (replays_own_iff (fun r hr => (hkept r hr).2.1) (hfile ▸ hsum)).mp hown k region hk
  · intro hplace heap file hfile
    obtain ⟨kl, heap', xs, t, hconstruct, hlists⟩ := construct_kl_messages_eq hallocatable heap file
    refine ⟨kl, heap', xs, t, _, hconstruct, hlists, ?_⟩
    refine (replays_own_iff (fun r hr => (hkept r hr).2.1) (hfile ▸ hsum)).mpr fun k region hk => ?_
    rw [hplace k region hk]

/-- The extractor for DICOM, which finds at least one code in every answer. -/
def dicom : CodeExtractor where
  extract_response_codes := extract_response_codes_dicom
  nonempty := by
    intro response_buf size hpos
    rw [extract_response_codes_dicom, if_neg (Nat.ne_of_gt hpos)]
    exact List.cons_ne_nil _ _

/-- An entry with two requests of three bytes each. -/
def two_requests : queue_entry := .of_regions "id:000007" [.fresh 0 2, .fresh 3 5]

/-- The two requests follow one another through the file. -/
theorem partitions_two_requests : Partitions two_requests.live_regions 6 where
  tiles := ⟨rfl, rfl, rfl⟩
  proper := by decide

theorem consistent_two_requests : ∀ region ∈ two_requests.live_regions, region.Consistent := by decide

/-- If both requests are answered, each message has the bytes of its own region. -/
theorem replay_of_answered_requests : ∃ q', annotate_and_preprocess dicom ⟨[2, 3], [1, 2]⟩ two_requests = pure q' ∧
    ∀ (heap : Heap message_t) (file : List UInt8), file.length = 6 → ∃ kl heap' xs t ms,
      construct_kl_messages heap file q'.regions q'.region_count = pure (kl, heap') ∧ Lists kl heap' xs t ms ∧
        ReplaysOwn file q'.live_regions ms := by
  obtain ⟨q', heq, hiff⟩ := @replayed_messages_are_own_iff dicom ⟨[2, 3], [1, 2]⟩ two_requests 6
    partitions_two_requests consistent_two_requests (by decide)
  refine ⟨q', heq, hiff.mpr ?_⟩
  rintro i j hij ⟨_, hj, _⟩
  have hlt : j < 2 := (List.getElem?_eq_some_iff.mp hj).1
  have hzero : i = 0 := by omega
  rw [hzero]
  exact ⟨_, rfl, Or.inl ⟨1, rfl, by decide, fun hpos => absurd hpos (by decide)⟩⟩

/-- The first request is not answered, so its region is removed. The message of the
second one then has the bytes of the first. -/
theorem replay_after_unanswered_request : ∃ q' kl heap' xs t ms,
    annotate_and_preprocess dicom ⟨[2], [0, 1]⟩ two_requests = pure q' ∧
      construct_kl_messages ⟨[]⟩ [65, 66, 67, 68, 69, 70] q'.regions q'.region_count = pure (kl, heap') ∧
      Lists kl heap' xs t ms ∧ ¬ ReplaysOwn [65, 66, 67, 68, 69, 70] q'.live_regions ms := by
  obtain ⟨kl, heap', xs, t, hconstruct, hlists⟩ := @construct_kl_messages_eq
    [(region_t.fresh 3 5).with_states [0, 2], (region_t.fresh 3 5).with_states [0, 2]] 1 (by decide) ⟨[]⟩
    [65, 66, 67, 68, 69, 70]
  refine ⟨_, kl, heap', xs, t, _, rfl, hconstruct, hlists, ?_⟩
  rintro ⟨_, hown⟩
  exact absurd (hown 0 _ _ rfl rfl) (by decide)

end aflnet
