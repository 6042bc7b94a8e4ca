import Mathlib.Data.Nat.Find
import AflnetLegion.Queue.Replay

open Checked

namespace aflnet

open mcts

/-- The last element that is kept, when the ones after it are not. -/
theorem getLast?_filter_of_last {α : Type} {p : α → Bool} {l : List α} {k : Nat} {x : α} (hk : l[k]? = some x)
    (hx : p x = true) (hafter : ∀ (j : Nat) (y : α), k < j → l[j]? = some y → p y = false) :
    (l.filter p).getLast? = some x := by
  have hlt := (List.getElem?_eq_some_iff.mp hk).1
  have hrest : (l.drop (k + 1)).filter p = [] := by
    rw [List.filter_eq_nil_iff]
    intro y hy
    obtain ⟨i, hi⟩ := List.mem_iff_getElem?.mp hy
    rw [List.getElem?_drop] at hi
    rw [hafter (k + 1 + i) y (by omega) hi]
    exact Bool.false_ne_true
  have hsplit : l = l.take k ++ x :: l.drop (k + 1) := by
    conv_lhs => rw [← List.take_append_drop k l]
    rw [List.drop_eq_getElem_cons hlt, (List.getElem?_eq_some_iff.mp hk).2]
  rw [hsplit, List.filter_append, List.filter_cons_of_pos hx, hrest, List.getLast?_append, List.getLast?_singleton,
    Option.some_or]

/-- The first message after which everything had arrived. -/
theorem exists_first_complete {response_bytes : List Nat} {size : Nat} (hsorted : response_bytes.Pairwise (· ≤ ·))
    (hlast : response_bytes.getLast? = some size) : ∃ k, response_bytes[k]? = some size ∧
      (0 < k → response_bytes[k - 1]? ≠ some size) ∧
      ∀ (j bytes : Nat), k < j → response_bytes[j]? = some bytes → bytes = size := by
  rw [List.getLast?_eq_getElem?] at hlast
  have hexists : ∃ k, response_bytes[k]? = some size := ⟨_, hlast⟩
  have hfirst := Nat.find_spec hexists
  refine ⟨Nat.find hexists, hfirst, fun hpos => Nat.find_min hexists (by omega), fun j bytes hj hbytes => ?_⟩
  obtain ⟨hk, hk_eq⟩ := List.getElem?_eq_some_iff.mp hfirst
  obtain ⟨hj_lt, hj_eq⟩ := List.getElem?_eq_some_iff.mp hbytes
  obtain ⟨hn, hn_eq⟩ := List.getElem?_eq_some_iff.mp hlast
  have hlow : size ≤ bytes := by
    rw [← hk_eq, ← hj_eq]
    exact List.pairwise_iff_getElem.mp hsorted _ _ hk hj_lt hj
  have hhigh : bytes ≤ size := by
    rcases Nat.lt_or_eq_of_le (show j ≤ response_bytes.length - 1 by omega) with hlt | heq
    · rw [← hn_eq, ← hj_eq]
      exact List.pairwise_iff_getElem.mp hsorted _ _ hj_lt hn hlt
    · subst heq
      rw [← hn_eq, ← hj_eq]
  exact Nat.le_antisymm hhigh hlow

section

variable {extractor : CodeExtractor} {responses : Responses} {q : queue_entry}

/-- A region without states is consistent if its count is 0, as it is when the region was found.
-/
theorem region_t.consistent_of_fresh {region : region_t} (h : region.state_sequence = none) : region.Consistent := by
  have hcount := region.allocated
  rw [h] at hcount
  constructor
  · intro hpos
    exact absurd hcount (Nat.not_le_of_lt hpos)
  · exact fun hne => absurd h hne

theorem region_t.codes_truncate (region : region_t) : region.truncate.codes = region.codes.take truncated_state_count := by
  change (region.state_sequence.getD []).take (min region.state_count truncated_state_count) = _
  rw [codes, List.take_take, Nat.min_comm]

/-- The region of a message that brought something new gets the codes of all that had arrived by
then. -/
theorem annotated_region_of_answered {k bytes : Nat} (hbytes : responses.response_bytes[k]? = some bytes)
    (hpos : bytes ≠ 0) (hnew : 0 < k → responses.response_bytes[k - 1]? ≠ some bytes) (region : region_t) :
    annotated_region extractor responses k region =
      region.with_states (extractor.extract_response_codes responses.response_buf bytes) := by
  have hanswer : ¬ (bytes = 0 ∨ (0 < k ∧ responses.response_bytes[k - 1]? = some bytes)) := by
    rintro (hzero | ⟨hk, hsame⟩)
    · exact hpos hzero
    · exact hnew hk hsame
  rw [annotated_region]
  simp only [hbytes, if_neg hanswer]

/-- Every kept region has states. -/
theorem states_of_kept (hconsistent : ∀ region ∈ q.live_regions, region.Consistent) {region : region_t}
    (hkept : region ∈ kept_regions extractor responses q) : region.state_sequence ≠ none ∧ 0 < region.state_count := by
  obtain ⟨annotated, hannotated, rfl⟩ := List.mem_map.mp hkept
  obtain ⟨hmem, hsome⟩ := List.mem_filter.mp hannotated
  obtain ⟨k, hk, rfl⟩ := List.mem_mapIdx.mp hmem
  rw [region_t.is_annotated_iff] at hsome
  have hafter := (@consistent_annotated_region extractor responses k _
    (hconsistent _ (List.getElem_mem hk))).truncate
  exact ⟨hsome, hafter.mpr hsome⟩

/-- If nothing was annotated before, the last region that is kept is the one of the
message that completed the response. -/
theorem getLast?_kept_regions {k size : Nat} {region : region_t} (hk : q.live_regions[k]? = some region)
    (hfresh : ∀ region ∈ q.live_regions, region.state_sequence = none) (hsize : size ≠ 0)
    (hbytes : responses.response_bytes[k]? = some size) (hnew : 0 < k → responses.response_bytes[k - 1]? ≠ some size)
    (hafter : ∀ (j bytes : Nat), k < j → responses.response_bytes[j]? = some bytes → bytes = size) :
    (kept_regions extractor responses q).getLast? =
      some (region.with_states (extractor.extract_response_codes responses.response_buf size)).truncate := by
  rw [kept_regions, List.getLast?_map, ← annotated_region_of_answered hbytes hsize hnew region]
  have hlast := @getLast?_filter_of_last _ region_t.is_annotated
    (q.live_regions.mapIdx (annotated_region extractor responses)) k (annotated_region extractor responses k region)
    (by rw [List.getElem?_mapIdx, hk, Option.map_some])
    ((is_annotated_annotated_region ..).mpr (Or.inl ⟨size, hbytes, hsize, hnew⟩)) ?_
  · rw [hlast, Option.map_some]
  · intro j y hj hy
    rw [List.getElem?_mapIdx] at hy
    obtain ⟨old, hold, rfl⟩ := Option.map_eq_some_iff.mp hy
    rw [Bool.eq_false_iff]
    intro hannotated
    rcases (is_annotated_annotated_region ..).mp hannotated with ⟨bytes, hj_bytes, _, hj_new⟩ | ⟨_, hj_old⟩
    · -- the message before `j` had already completed the response
      have hprevious : responses.response_bytes[j - 1]? = some size := by
        rcases Nat.eq_or_lt_of_le (show k ≤ j - 1 by omega) with heq | hlt
        · rw [← heq]
          exact hbytes
        · have hj_lt := (List.getElem?_eq_some_iff.mp hj_bytes).1
          have hget := List.getElem?_eq_getElem (show j - 1 < responses.response_bytes.length by omega)
          rw [hget, hafter _ _ hlt hget]
      rw [hafter j bytes hj hj_bytes] at hj_new
      exact hj_new (by omega) hprevious
    · rw [region_t.is_annotated_iff] at hj_old
      exact hj_old (hfresh old (List.mem_of_getElem? hold))

end

/-- After `update_MCTS_tree` has annotated and preprocessed an entry that had no
annotations, its last region holds the codes of the whole response. -/
theorem last_region_carries_execution {extractor : CodeExtractor} {responses : Responses} {q : queue_entry}
    (hfresh : ∀ region ∈ q.live_regions, region.state_sequence = none)
    (hsent : responses.response_bytes.length ≤ q.region_count) (hsorted : responses.response_bytes.Pairwise (· ≤ ·))
    (hlast : responses.response_bytes.getLast? = some responses.response_buf.length)
    (hpos : 0 < responses.response_buf.length) :
    ∃ q', annotate_and_preprocess extractor responses q = pure q' ∧ 1 ≤ q'.region_count ∧
      (∀ region ∈ q'.live_regions, region.state_sequence ≠ none ∧ 0 < region.state_count) ∧
      ∃ last, q'.live_regions[q'.region_count - 1]? = some last ∧ last.codes =
        (extractor.extract_response_codes responses.response_buf responses.response_buf.length).take 200 := by
  have hconsistent : ∀ region ∈ q.live_regions, region.Consistent :=
    fun region hregion => region_t.consistent_of_fresh (hfresh region hregion)
  obtain ⟨q', heq, hlive⟩ := @annotate_and_preprocess_eq extractor responses q hconsistent hsent
  obtain ⟨k, hbytes, hnew, hafter⟩ := exists_first_complete hsorted hlast
  have hk : k < q.live_regions.length := by
    rw [queue_entry.length_live_regions]
    exact Nat.lt_of_lt_of_le (List.getElem?_eq_some_iff.mp hbytes).1 hsent
  have hkept := @getLast?_kept_regions extractor responses q k _ _ (List.getElem?_eq_getElem hk) hfresh
    (Nat.ne_of_gt hpos) hbytes hnew hafter
  rw [← hlive, List.getLast?_eq_getElem?, queue_entry.length_live_regions] at hkept
  refine ⟨q', heq, ?_, fun region hregion => ?_, _, hkept, ?_⟩
  · exact Nat.lt_of_le_of_lt (Nat.zero_le _) (queue_entry.lt_of_live hkept)
  · rw [hlive] at hregion
    exact states_of_kept hconsistent hregion
  · rw [region_t.codes_truncate, region_t.with_states, region_t.codes_annotated, truncated_state_count]

/-- The last region has the codes of the second answer. -/
theorem last_region_of_two_requests : ∃ q', annotate_and_preprocess dicom ⟨[2, 3], [1, 2]⟩ two_requests = pure q' ∧
    1 ≤ q'.region_count ∧ ∃ last, q'.live_regions[q'.region_count - 1]? = some last ∧ last.codes = [0, 2] := by
  obtain ⟨q', heq, hone, _, last, hlast, hcodes⟩ := @last_region_carries_execution dicom ⟨[2, 3], [1, 2]⟩ two_requests
    (by decide) (by decide) (by decide) rfl (by decide)
  exact ⟨q', heq, hone, last, hlast, hcodes⟩

end aflnet
