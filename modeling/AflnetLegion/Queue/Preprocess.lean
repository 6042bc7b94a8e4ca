import AflnetLegion.Queue.Annotate

open Checked

namespace aflnet

open mcts

/-- The count of a region agrees with its annotation. -/
def region_t.Consistent (region : region_t) : Prop := 0 < region.state_count ↔ region.state_sequence ≠ none

instance (region : region_t) : Decidable region.Consistent := inferInstanceAs (Decidable (_ ↔ _))

/-- Whether a region has an array of states. -/
def region_t.is_annotated (region : region_t) : Bool := region.state_sequence.isSome

theorem region_t.is_annotated_iff (region : region_t) : region.is_annotated = true ↔ region.state_sequence ≠ none := by
  rw [is_annotated, Option.isSome_iff_ne_none]

theorem region_t.not_annotated_iff (region : region_t) : region.is_annotated = false ↔ region.state_sequence = none := by
  rw [is_annotated, Option.isSome_eq_false_iff, Option.isNone_iff_eq_none]

theorem region_t.truncate_of_short {region : region_t} (h : region.state_count < truncated_state_count) :
    region.truncate = region := by
  have hmin : min region.state_count truncated_state_count = region.state_count := Nat.min_eq_left (Nat.le_of_lt h)
  cases region
  simp only [truncate] at *
  congr

theorem log_assert_of_true {condition : Prop} [Decidable condition] (h : condition) (site : Assertion) :
    log_assert condition site = pure () := soft_assert_of_true h site

namespace queue_entry

variable {q : queue_entry} {region : region_t} {index : Nat}

theorem get_region_eq (h : q.regions[index]? = some region) : q.get_region index = pure region := by
  rw [get_region]
  simp only [h]

theorem lt_of_live (h : q.live_regions[index]? = some region) : index < q.region_count := by
  have hlt := (List.getElem?_eq_some_iff.mp h).1
  rw [length_live_regions] at hlt
  exact hlt

theorem getElem?_live (h : q.live_regions[index]? = some region) : q.regions[index]? = some region := by
  rw [live_regions, List.getElem?_take_of_lt (lt_of_live h)] at h
  exact h

theorem live_set_region (q : queue_entry) (index : Nat) (region : region_t) :
    (q.set_region index region).live_regions = q.live_regions.set index region := by
  change (q.regions.set index region).take q.region_count = _
  rw [List.take_set, live_regions]

theorem live_set_region_count {count : Nat} (h : count ≤ q.region_count) :
    (q.set_region_count count).live_regions = q.live_regions.take count := by
  change q.regions.take (min count q.regions.length) = _
  rw [Nat.min_eq_left (Nat.le_trans h q.allocated), live_regions, List.take_take, Nat.min_eq_left h]

end queue_entry

/-- The inner loop stops at an annotated region or behind the last one, and passes
only regions without annotation. -/
theorem skip_null_regions_eq {q : queue_entry} {left index : Nat} (hleft : left = q.region_count - index)
    (hindex : index ≤ q.region_count) : ∃ found, skip_null_regions q left index = pure found ∧ index ≤ found ∧
      found ≤ q.region_count ∧
      (q.live_regions.drop index).filter region_t.is_annotated = (q.live_regions.drop found).filter region_t.is_annotated ∧
      ∀ region, q.live_regions[found]? = some region → region.state_sequence ≠ none := by
  induction left generalizing index with
  | zero =>
    refine ⟨index, rfl, Nat.le_refl _, hindex, rfl, fun region hregion => ?_⟩
    have hlt := queue_entry.lt_of_live hregion
    omega
  | succ left ih =>
    have hlt : index < q.live_regions.length := by
      rw [queue_entry.length_live_regions]
      omega
    have hregion := List.getElem?_eq_getElem hlt
    rw [skip_null_regions, queue_entry.get_region_eq (queue_entry.getElem?_live hregion), pure_bind]
    split
    · rename_i hnull
      obtain ⟨found, heq, hle, hbound, hfilter, hstop⟩ := ih (show left = q.region_count - (index + 1) by omega) (by omega)
      refine ⟨found, heq, by omega, hbound, ?_, hstop⟩
      rw [List.drop_eq_getElem_cons hlt, List.filter_cons_of_neg, hfilter]
      rw [Bool.not_eq_true, region_t.not_annotated_iff]
      exact hnull
    · rename_i hsome
      refine ⟨index, rfl, Nat.le_refl _, by omega, rfl, fun region hfound => ?_⟩
      rw [hregion] at hfound
      cases hfound
      exact hsome

/-- The first loop of `remove_null_regions` with its assignments to regions, each by the
index that is written and the one that is read. -/
def close_gaps_moves (q : queue_entry) : Nat → Nat → Nat → M (queue_entry × List (Nat × Nat))
  | 0, _, _ => pure (q, [])
  | left + 1, region_index, null_region_count => do
    let region ← q.get_region region_index
    log_assert (0 < region.state_count ↔ region.state_sequence ≠ none) .count_matches_sequence
    if null_region_count = 0 ∧ region.state_sequence ≠ none then
      close_gaps_moves q left (region_index + 1) null_region_count
    else do
      let found ←
        skip_null_regions q (q.region_count - (region_index + null_region_count)) (region_index + null_region_count)
      if q.region_count ≤ found then pure (q.set_region_count region_index, [])
      else do
        let replacement ← q.get_region found
        log_assert (replacement.state_sequence ≠ none) .replacement_is_annotated
        let rest ← close_gaps_moves (q.set_region region_index replacement) left (region_index + 1) (found - region_index)
        pure (rest.1, (region_index, found) :: rest.2)

/-- The loop does nothing else. -/
theorem close_gaps_eq_moves (q : queue_entry) (left region_index null_region_count : Nat) :
    close_gaps q left region_index null_region_count =
      close_gaps_moves q left region_index null_region_count >>= fun result => pure result.1 := by
  induction left generalizing q region_index null_region_count with
  | zero => rfl
  | succ left ih =>
    rw [close_gaps, close_gaps_moves]
    simp only [bind_assoc]
    congr 1
    funext region
    congr 1
    funext _
    split
    · exact ih q (region_index + 1) null_region_count
    · rw [bind_assoc]
      congr 1
      funext found
      split
      · rfl
      · simp only [bind_assoc]
        congr 1
        funext replacement
        congr 1
        funext _
        rw [ih]
        rfl

/-- No move reads a slot that an earlier one has written. -/
def ReadsFirst (moves : List (Nat × Nat)) : Prop := moves.Pairwise fun earlier later => earlier.1 ≠ later.2

/-- The moves go down, from the slot `region_index` on: each takes a region from a later slot to
an earlier one, and none reads what another has written. -/
structure MovesFrom (region_index : Nat) (moves : List (Nat × Nat)) : Prop where
  starts : ∀ move ∈ moves, region_index ≤ move.1
  down : ∀ move ∈ moves, move.1 < move.2
  reads_first : ReadsFirst moves

theorem MovesFrom.nil (region_index : Nat) : MovesFrom region_index [] :=
  ⟨fun _ hmem => absurd hmem List.not_mem_nil, fun _ hmem => absurd hmem List.not_mem_nil, List.Pairwise.nil⟩

theorem MovesFrom.mono {i j : Nat} {moves : List (Nat × Nat)} (h : MovesFrom j moves) (hij : i ≤ j) : MovesFrom i moves :=
  ⟨fun move hmem => Nat.le_trans hij (h.starts move hmem), h.down, h.reads_first⟩

theorem MovesFrom.cons {region_index found : Nat} {moves : List (Nat × Nat)} (h : MovesFrom (region_index + 1) moves)
    (hfound : region_index < found) : MovesFrom region_index ((region_index, found) :: moves) where
  starts := by
    intro move hmem
    obtain rfl | hmem := List.mem_cons.mp hmem
    · exact Nat.le_refl _
    · exact Nat.le_of_succ_le (h.starts move hmem)
  down := by
    intro move hmem
    obtain rfl | hmem := List.mem_cons.mp hmem
    · exact hfound
    · exact h.down move hmem
  reads_first := by
    refine List.pairwise_cons.mpr ⟨fun later hmem => ?_, h.reads_first⟩
    have hstarts := h.starts later hmem
    have hdown := h.down later hmem
    dsimp only
    omega

/-- The regions stay consistent when one of them is replaced by a consistent one. -/
theorem consistent_set_region {q : queue_entry} {region : region_t} (region_index : Nat)
    (hconsistent : ∀ region ∈ q.live_regions, region.Consistent) (hregion : region.Consistent) :
    ∀ region' ∈ (q.set_region region_index region).live_regions, region'.Consistent := by
  intro region' hmem
  rw [queue_entry.live_set_region] at hmem
  cases List.mem_or_eq_of_mem_set hmem with
  | inl hold => exact hconsistent region' hold
  | inr hnew => rwa [hnew]

/-- The regions up to one that has been replaced, and those behind it. -/
theorem live_set_region_split {q : queue_entry} {region_index later : Nat} (region : region_t)
    (hlt : region_index < q.live_regions.length) (hlater : region_index < later) :
    (q.set_region region_index region).live_regions.take (region_index + 1) = q.live_regions.take region_index ++ [region] ∧
      (q.set_region region_index region).live_regions.drop later = q.live_regions.drop later := by
  rw [queue_entry.live_set_region]
  constructor
  · rw [List.take_add_one, List.getElem?_set_self hlt, List.take_set_of_le (Nat.le_refl _)]
    rfl
  · exact List.drop_set_of_lt hlater

/-- The loop moves the annotated regions together: those up to `region_index` are in
place, and from `region_index + null_region_count` on they are still to be moved. -/
theorem close_gaps_moves_eq {q : queue_entry} {left region_index null_region_count : Nat}
    (hconsistent : ∀ region ∈ q.live_regions, region.Consistent) (hleft : left = q.region_count - region_index)
    (hbound : region_index + null_region_count ≤ q.region_count) :
    ∃ q' moves, close_gaps_moves q left region_index null_region_count = pure (q', moves) ∧
      q'.live_regions = q.live_regions.take region_index ++
        (q.live_regions.drop (region_index + null_region_count)).filter region_t.is_annotated ∧
      MovesFrom region_index moves := by
  induction left generalizing q region_index null_region_count with
  | zero =>
    refine ⟨q, [], rfl, ?_, .nil _⟩
    rw [List.take_of_length_le (by simp; omega), List.drop_eq_nil_of_le (by simp; omega), List.filter_nil, List.append_nil]
  | succ left ih =>
    have hlt : region_index < q.live_regions.length := by
      rw [queue_entry.length_live_regions]
      omega
    have hregion := List.getElem?_eq_getElem hlt
    have hcount : 0 < q.live_regions[region_index].state_count ↔ q.live_regions[region_index].state_sequence ≠ none :=
      hconsistent _ (List.getElem_mem hlt)
    rw [close_gaps_moves, queue_entry.get_region_eq (queue_entry.getElem?_live hregion), pure_bind,
      log_assert_of_true hcount, pure_bind]
    split
    · rename_i hcase
      obtain ⟨hzero, hannotated⟩ := hcase
      subst hzero
      obtain ⟨q', moves, heq, hlive, hmoves⟩ := ih hconsistent (show left = q.region_count - (region_index + 1) by omega)
        (show region_index + 1 + 0 ≤ q.region_count by omega)
      refine ⟨q', moves, heq, ?_, hmoves.mono (Nat.le_succ _)⟩
      rw [Nat.add_zero] at hlive ⊢
      rw [hlive, List.take_add_one, hregion, List.drop_eq_getElem_cons hlt,
        List.filter_cons_of_pos ((region_t.is_annotated_iff _).mpr hannotated), List.append_assoc]
      rfl
    · rename_i hcase
      obtain ⟨found, hskip, hle, hend, hfilter, hstop⟩ := skip_null_regions_eq rfl hbound
      rw [hskip, pure_bind, hfilter]
      split
      · rename_i hdone
        refine ⟨q.set_region_count region_index, [], rfl, ?_, .nil _⟩
        rw [queue_entry.live_set_region_count (by omega), List.drop_eq_nil_of_le (by simp; omega), List.filter_nil,
          List.append_nil]
      · rename_i hmore
        have hfound : found < q.live_regions.length := by
          rw [queue_entry.length_live_regions]
          omega
        have hreplacement := List.getElem?_eq_getElem hfound
        have hannotated := hstop _ hreplacement
        -- The slot that is filled is itself one without annotation unless a gap is known already.
        have hdown : region_index < found := by
          refine Nat.lt_of_le_of_ne (by omega) fun hsame => ?_
          subst hsame
          exact hcase ⟨by omega, hannotated⟩
        rw [queue_entry.get_region_eq (queue_entry.getElem?_live hreplacement), pure_bind, log_assert_of_true hannotated,
          pure_bind]
        have hconsistent_set := consistent_set_region region_index hconsistent (hconsistent _ (List.getElem_mem hfound))
        obtain ⟨q', moves, heq, hlive, hmoves⟩ := ih hconsistent_set (show left = q.region_count - (region_index + 1) by omega)
          (show region_index + 1 + (found - region_index) ≤ q.region_count by omega)
        refine ⟨q', (region_index, found) :: moves, ?_, ?_, hmoves.cons hdown⟩
        · rw [heq, pure_bind]
        · have hdrop : region_index + 1 + (found - region_index) = found + 1 := by omega
          obtain ⟨htaken, hrest⟩ := live_set_region_split q.live_regions[found] hlt (Nat.lt_succ_of_lt hdown)
          rw [hlive, hdrop, htaken, hrest, List.drop_eq_getElem_cons hfound,
            List.filter_cons_of_pos ((region_t.is_annotated_iff _).mpr hannotated), List.append_assoc]
          rfl

/-- The first loop keeps the annotated regions in their order. No move reads a slot that was
written before. -/
theorem close_gaps_eq {q : queue_entry} (hconsistent : ∀ region ∈ q.live_regions, region.Consistent) :
    ∃ q' moves, close_gaps_moves q q.region_count 0 0 = pure (q', moves) ∧ close_gaps q q.region_count 0 0 = pure q' ∧
      q'.live_regions = q.live_regions.filter region_t.is_annotated ∧ ReadsFirst moves := by
  obtain ⟨q', moves, hgaps, hlive, hmoves⟩ := close_gaps_moves_eq hconsistent (Nat.sub_zero q.region_count).symm
    (show 0 + 0 ≤ q.region_count from Nat.zero_le _)
  rw [List.take_zero, List.nil_append, Nat.add_zero, List.drop_zero] at hlive
  refine ⟨q', moves, hgaps, ?_, hlive, hmoves.reads_first⟩
  rw [close_gaps_eq_moves, hgaps, pure_bind]

/-- The assertion holds for regions that are annotated and consistent. -/
theorem check_annotated_eq {regions : List region_t} (h : ∀ region ∈ regions, region.Consistent ∧ region.is_annotated = true) :
    check_annotated regions = pure () := by
  induction regions with
  | nil => rfl
  | cons region regions ih =>
    obtain ⟨hconsistent, hannotated⟩ := h region (List.mem_cons_self ..)
    rw [region_t.is_annotated_iff] at hannotated
    have hcondition : region.state_sequence ≠ none ∧ region.state_count ≠ 0 :=
      ⟨hannotated, Nat.ne_of_gt (hconsistent.mpr hannotated)⟩
    rw [check_annotated, log_assert_of_true hcondition, pure_bind]
    exact ih fun r hr => h r (List.mem_cons_of_mem _ hr)

/-- The regions that are kept are annotated, and consistent as they were. -/
theorem kept_of_filter {q q' : queue_entry} (hconsistent : ∀ region ∈ q.live_regions, region.Consistent)
    (hlive : q'.live_regions = q.live_regions.filter region_t.is_annotated) :
    ∀ region ∈ q'.live_regions, region.Consistent ∧ region.is_annotated = true := by
  intro region hregion
  rw [hlive] at hregion
  exact ⟨hconsistent region (List.mem_filter.mp hregion).1, (List.mem_filter.mp hregion).2⟩

/-- What the first loop leaves passes the check of the last one. -/
theorem remove_null_regions_of_gaps {q q' : queue_entry} (hconsistent : ∀ region ∈ q.live_regions, region.Consistent)
    (hgaps : close_gaps q q.region_count 0 0 = pure q')
    (hlive : q'.live_regions = q.live_regions.filter region_t.is_annotated) : remove_null_regions q = pure q' := by
  rw [remove_null_regions, hgaps, pure_bind, check_annotated_eq (kept_of_filter hconsistent hlive), pure_bind]

/-- The annotated regions are moved together in their order, unchanged, and each slot is read
before it is written: the place a region is moved to is never behind the place it comes from. -/
theorem remove_null_regions_filters {q : queue_entry} (hconsistent : ∀ region ∈ q.live_regions, region.Consistent) :
    ∃ q' moves, remove_null_regions q = pure q' ∧ q'.live_regions = q.live_regions.filter region_t.is_annotated ∧
      close_gaps_moves q q.region_count 0 0 = pure (q', moves) ∧ ReadsFirst moves := by
  obtain ⟨q', moves, hmoves, hgaps, hlive, hfirst⟩ := close_gaps_eq hconsistent
  exact ⟨q', moves, remove_null_regions_of_gaps hconsistent hgaps hlive, hlive, hmoves, hfirst⟩

/-- Gaps at the start, in the middle and at the end. -/
def gapped_regions : queue_entry := .of_regions "id:000000" [.fresh 0 0, .annotated 1 1 [220], .fresh 2 2, .fresh 3 3,
  .annotated 4 4 [331, 230], .fresh 5 5]

/-- Two of six regions are annotated, and these are kept. -/
theorem remove_null_regions_of_gapped_regions :
    ∃ q' moves, remove_null_regions gapped_regions = pure q' ∧ q'.live_regions = [.annotated 1 1 [220], .annotated 4 4 [331, 230]] ∧
      close_gaps_moves gapped_regions 6 0 0 = pure (q', moves) ∧ ReadsFirst moves :=
  remove_null_regions_filters (q := gapped_regions) (by decide)

theorem region_t.Consistent.truncate {region : region_t} (h : region.Consistent) : region.truncate.Consistent := by
  have hiff : 0 < min region.state_count truncated_state_count ↔ 0 < region.state_count := by
    rw [truncated_state_count]
    omega
  exact hiff.trans h

/-- The loop cuts the regions from `region_index` on. -/
theorem truncate_from_eq {q : queue_entry} {left region_index : Nat}
    (hconsistent : ∀ region ∈ q.live_regions, region.Consistent) (hleft : left = q.region_count - region_index) :
    ∃ q', truncate_from q left region_index = pure q' ∧
      q'.live_regions = q.live_regions.take region_index ++ (q.live_regions.drop region_index).map region_t.truncate := by
  induction left generalizing q region_index with
  | zero =>
    refine ⟨q, rfl, ?_⟩
    rw [List.take_of_length_le (by simp; omega), List.drop_eq_nil_of_le (by simp; omega), List.map_nil, List.append_nil]
  | succ left ih =>
    have hlt : region_index < q.live_regions.length := by
      rw [queue_entry.length_live_regions]
      omega
    have hregion := List.getElem?_eq_getElem hlt
    have hcount : 0 < q.live_regions[region_index].state_count ↔ q.live_regions[region_index].state_sequence ≠ none :=
      hconsistent _ (List.getElem_mem hlt)
    rw [truncate_from, queue_entry.get_region_eq (queue_entry.getElem?_live hregion), pure_bind,
      log_assert_of_true hcount, pure_bind, List.drop_eq_getElem_cons hlt, List.map_cons]
    split
    · rename_i hshort
      obtain ⟨q', heq, hlive⟩ := ih hconsistent (show left = q.region_count - (region_index + 1) by omega)
      refine ⟨q', heq, ?_⟩
      rw [hlive, List.take_add_one, hregion, List.append_assoc, region_t.truncate_of_short hshort]
      rfl
    · have hconsistent_set := consistent_set_region region_index hconsistent (hconsistent _ (List.getElem_mem hlt)).truncate
      obtain ⟨q', heq, hlive⟩ := ih hconsistent_set (show left = q.region_count - (region_index + 1) by omega)
      obtain ⟨htaken, hrest⟩ := live_set_region_split q.live_regions[region_index].truncate hlt (Nat.lt_succ_self _)
      refine ⟨q', heq, ?_⟩
      rw [hlive, htaken, hrest, List.append_assoc]
      rfl

/-- Preprocessing keeps the annotated regions, cut to 200 states. -/
theorem preprocess_queue_entry_eq {q : queue_entry} (hconsistent : ∀ region ∈ q.live_regions, region.Consistent) :
    ∃ q', preprocess_queue_entry q = pure q' ∧
      q'.live_regions = (q.live_regions.filter region_t.is_annotated).map region_t.truncate := by
  obtain ⟨q₁, _, _, hgaps, hlive₁, _⟩ := close_gaps_eq hconsistent
  obtain ⟨q₂, htruncate, hlive₂⟩ := truncate_from_eq (fun region hregion => (kept_of_filter hconsistent hlive₁ region hregion).1)
    (show q₁.region_count = q₁.region_count - 0 from rfl)
  refine ⟨q₂, ?_, ?_⟩
  · rw [preprocess_queue_entry, remove_null_regions_of_gaps hconsistent hgaps hlive₁, pure_bind, truncate_long_regions,
      htruncate]
  · rw [hlive₂, List.take_zero, List.nil_append, List.drop_zero, hlive₁]

/-- What `update_region_annotations` makes of the region of the message `k`. Without a new byte
the region loses its annotations, and beyond the messages sent it keeps what it has. -/
def annotated_region (extractor : CodeExtractor) (responses : Responses) (k : Nat) (region : region_t) : region_t :=
  match responses.response_bytes[k]? with
  | none => region
  | some bytes =>
    if bytes = 0 ∨ (0 < k ∧ responses.response_bytes[k - 1]? = some bytes) then region.without_states
    else region.with_states (extractor.extract_response_codes responses.response_buf bytes)

/-- Message `k` was sent, and the server sent something before the next one. For the first
message that is anything at all. -/
def Responses.Answered (responses : Responses) (k : Nat) : Prop :=
  ∃ bytes, responses.response_bytes[k]? = some bytes ∧ bytes ≠ 0 ∧
    (0 < k → responses.response_bytes[k - 1]? ≠ some bytes)

section annotated_region

variable (extractor : CodeExtractor) (responses : Responses) (k : Nat) (region : region_t)

theorem bytes_annotated_region : (annotated_region extractor responses k region).start_byte = region.start_byte ∧
    (annotated_region extractor responses k region).end_byte = region.end_byte := by
  rw [annotated_region]
  split
  · exact ⟨rfl, rfl⟩
  · split <;> exact ⟨rfl, rfl⟩

variable {region}

theorem consistent_annotated_region (h : region.Consistent) : (annotated_region extractor responses k region).Consistent := by
  rw [annotated_region]
  split
  · exact h
  · rename_i bytes _
    split
    · exact ⟨fun hpos => absurd hpos (Nat.lt_irrefl 0), fun hnone => absurd rfl hnone⟩
    · rename_i hanswer
      have hcodes := extractor.nonempty responses.response_buf bytes (Nat.pos_of_ne_zero fun hzero => hanswer (Or.inl hzero))
      exact ⟨fun _ => Option.some_ne_none _, fun _ => List.length_pos_iff.mpr hcodes⟩

/-- A region of a message that was sent is annotated if the message was answered,
whatever annotation it had. -/
theorem is_annotated_annotated_region : (annotated_region extractor responses k region).is_annotated = true ↔
    responses.Answered k ∨ (responses.response_bytes.length ≤ k ∧ region.is_annotated = true) := by
  rw [annotated_region, Responses.Answered]
  cases hbytes : responses.response_bytes[k]? with
  | none =>
    have hle := List.getElem?_eq_none_iff.mp hbytes
    simp [hle]
  | some bytes =>
    have hlt := (List.getElem?_eq_some_iff.mp hbytes).1
    have hnot : ¬ responses.response_bytes.length ≤ k := Nat.not_le.mpr hlt
    dsimp only
    split
    · rename_i hnone
      constructor
      · exact fun hfalse => by cases hfalse
      · rintro (⟨b, hb, hpos, hnew⟩ | ⟨hle, _⟩)
        · cases hb
          rcases hnone with hzero | ⟨hk, hsame⟩
          · exact absurd hzero hpos
          · exact absurd hsame (hnew hk)
        · exact absurd hle hnot
    · rename_i hsome
      rw [not_or, not_and] at hsome
      exact ⟨fun _ => Or.inl ⟨bytes, rfl, hsome.1, hsome.2⟩, fun _ => rfl⟩

end annotated_region

/-- The loop annotates the regions from `i` on. -/
theorem annotate_from_eq {extractor : CodeExtractor} {responses : Responses} {q : queue_entry} {i : Nat}
    {previous : Option Nat} {rest : List Nat} (hrest : responses.response_bytes.drop i = rest)
    (hprevious : previous = if i = 0 then none else responses.response_bytes[i - 1]?)
    (hsent : responses.response_bytes.length ≤ q.region_count) :
    ∃ q', annotate_from extractor responses.response_buf i previous rest q = pure q' ∧
      ∀ k, q'.live_regions[k]? = q.live_regions[k]?.map fun region =>
        if i ≤ k then annotated_region extractor responses k region else region := by
  induction rest generalizing q i previous with
  | nil =>
    refine ⟨q, rfl, fun k => ?_⟩
    cases hregion : q.live_regions[k]? with
    | none => rfl
    | some region =>
      rw [Option.map_some]
      split
      · rename_i hk
        have hend : responses.response_bytes.length ≤ k := Nat.le_trans (List.drop_eq_nil_iff.mp hrest) hk
        rw [annotated_region, List.getElem?_eq_none hend]
      · rfl
  | cons bytes rest ih =>
    have hbytes : responses.response_bytes[i]? = some bytes := by
      rw [← List.head?_drop, hrest]
      rfl
    have hlt : i < q.live_regions.length := by
      have hbound := (List.getElem?_eq_some_iff.mp hbytes).1
      rw [queue_entry.length_live_regions]
      omega
    have hregion := List.getElem?_eq_getElem hlt
    have hnew : (if bytes = 0 ∨ previous = some bytes then q.live_regions[i].without_states
        else q.live_regions[i].with_states (extractor.extract_response_codes responses.response_buf bytes)) =
        annotated_region extractor responses i q.live_regions[i] := by
      have hcondition : previous = some bytes ↔ 0 < i ∧ responses.response_bytes[i - 1]? = some bytes := by
        rw [hprevious]
        rcases Nat.eq_zero_or_pos i with rfl | hpos
        · simp
        · rw [if_neg (Nat.ne_of_gt hpos)]
          exact ⟨fun heq => ⟨hpos, heq⟩, And.right⟩
      simp only [annotated_region, hbytes, hcondition]
    rw [annotate_from, queue_entry.get_region_eq (queue_entry.getElem?_live hregion), pure_bind, hnew]
    have htail : responses.response_bytes.drop (i + 1) = rest := by
      rw [← List.tail_drop, hrest]
      rfl
    obtain ⟨q', heq, hlive⟩ := ih (q := q.set_region i (annotated_region extractor responses i q.live_regions[i])) htail
      (by rw [if_neg (Nat.succ_ne_zero i), Nat.add_sub_cancel, hbytes]) hsent
    refine ⟨q', heq, fun k => ?_⟩
    rw [hlive, queue_entry.live_set_region]
    by_cases hk : i = k
    · subst hk
      rw [List.getElem?_set_self hlt, hregion, Option.map_some, Option.map_some, if_neg (Nat.not_succ_le_self i),
        if_pos (Nat.le_refl i)]
    · rw [List.getElem?_set_ne hk]
      have hiff : i + 1 ≤ k ↔ i ≤ k := by omega
      simp only [hiff]

/-- The regions of an entry that `update_MCTS_tree` goes on with: the annotated
ones, cut to 200 states. -/
def kept_regions (extractor : CodeExtractor) (responses : Responses) (q : queue_entry) : List region_t :=
  ((q.live_regions.mapIdx (annotated_region extractor responses)).filter region_t.is_annotated).map region_t.truncate

/-- All three steps together give the kept regions, if there is a region for each message that
was sent. -/
theorem annotate_and_preprocess_eq {extractor : CodeExtractor} {responses : Responses} {q : queue_entry}
    (hconsistent : ∀ region ∈ q.live_regions, region.Consistent)
    (hsent : responses.response_bytes.length ≤ q.region_count) :
    ∃ q', annotate_and_preprocess extractor responses q = pure q' ∧
      q'.live_regions = kept_regions extractor responses q := by
  obtain ⟨q₁, hannotate, hlive₁⟩ :=
    @annotate_from_eq extractor responses q 0 none responses.response_bytes rfl rfl hsent
  have hregions : q₁.live_regions = q.live_regions.mapIdx (annotated_region extractor responses) := by
    refine List.ext_getElem? fun k => ?_
    rw [hlive₁, List.getElem?_mapIdx]
    simp
  have hconsistent₁ : ∀ region ∈ q₁.live_regions, region.Consistent := by
    intro region hregion
    rw [hregions] at hregion
    obtain ⟨k, hk, rfl⟩ := List.mem_mapIdx.mp hregion
    exact consistent_annotated_region extractor responses k (hconsistent _ (List.getElem_mem hk))
  obtain ⟨q₂, hpreprocess, hlive₂⟩ := preprocess_queue_entry_eq hconsistent₁
  refine ⟨q₂, ?_, by rw [hlive₂, hregions, kept_regions]⟩
  rw [annotate_and_preprocess, update_region_annotations, hannotate, pure_bind, hpreprocess]

end aflnet
