import AflnetLegion.Mcts.Depth
import AflnetLegion.Mcts.ExactMatch
import AflnetLegion.Mcts.Follow

open Checked

namespace aflnet.mcts

/-- An iteration compares the response with the first region of all that is long enough. -/
theorem RegionMatch.Passed.compareReads_iff {q : queue_entry} {response_codes : List UInt32} {depth : Nat}
    {current : RegionMatch} (h : current.Passed q response_codes depth) :
    CompareReads q response_codes depth current ↔ ∀ i region,
      IsFirstLong (scanned_regions q response_codes) (depth + 1) i region → region.state_count ≤ 4 * response_codes.length := by
  have hbefore : ((scanned_regions q response_codes).take
      (current.matching_region_index + current.matched_exactly.toNat)).find? (fun region => depth + 1 ≤ region.state_count) =
        none := by
    rw [List.find?_eq_none]
    intro region hregion
    obtain ⟨k, hk⟩ := List.mem_iff_getElem?.mp hregion
    rw [List.getElem?_take] at hk
    split at hk
    · rename_i hlt
      have hle := h k region hlt hk
      simp only [decide_eq_true_eq]
      omega
    · cases hk
  have hwhole : ((scanned_regions q response_codes).drop
      (current.matching_region_index + current.matched_exactly.toNat)).find? (fun region => depth + 1 ≤ region.state_count) =
        (scanned_regions q response_codes).find? fun region => depth + 1 ≤ region.state_count := by
    conv_rhs => rw [← List.take_append_drop (current.matching_region_index + current.matched_exactly.toNat)
      (scanned_regions q response_codes), List.find?_append, hbefore, Option.none_or]
  rw [CompareReads, hwhole]
  constructor
  · exact fun hreads i region hfirst => hreads region (find?_iff_isFirstLong.mpr ⟨i, hfirst⟩)
  · intro hall region hfound
    obtain ⟨i, hfirst⟩ := find?_iff_isFirstLong.mp hfound
    exact hall i region hfirst

/-- No region that the scan may look at is longer than region `i`, and that one is matched: the
match is left over at every later position. -/
structure LeftOver (q : queue_entry) (response_codes : List UInt32) (i : Nat) (region : region_t) : Prop where
  first : IsFirstLong (scanned_regions q response_codes) region.state_count i region
  long : 2 ≤ region.state_count
  same : memcmp_eq response_codes (region.state_sequence.getD []) region.state_count = true
  last : ∀ other ∈ scanned_regions q response_codes, other.state_count ≤ region.state_count

/-- What the variables of the scan say about a match that is left over, because no region
scanned is long enough for the position that the walk has come to. -/
structure RegionMatch.Stands (q : queue_entry) (response_codes : List UInt32) (depth : Nat) (current : RegionMatch) :
    Prop where
  passed : current.Passed q response_codes depth
  left_over : current.matched_exactly = true →
    (∀ other ∈ scanned_regions q response_codes, other.state_count ≤ depth) →
    ∃ region, LeftOver q response_codes current.matching_region_index region ∧ region.state_count ≤ depth
  matched : ∀ i region, LeftOver q response_codes i region → region.state_count ≤ depth →
    current = { matching_region_index := i, matched_exactly := true }

namespace RegionMatch.Stands

variable {q : queue_entry} {response_codes : List UInt32} {depth : Nat} {current : RegionMatch}

theorem start : RegionMatch.Stands q response_codes 1 { matching_region_index := 0, matched_exactly := false } where
  passed := .start
  left_over := nofun
  matched := fun i region hover hle => absurd (Nat.le_trans hover.long hle) (by decide)

/-- One scan. If no further region is long enough, the variables keep the match of an earlier
position. -/
protected theorem match_regions (h : current.Stands q response_codes depth) (hdepth : 1 ≤ depth) :
    (match_regions q response_codes depth current).Stands q response_codes (depth + 1) := by
  refine ⟨h.passed.match_regions, ?_, ?_⟩
  · intro hmatched hshort
    rcases h.passed.match_regions_spec with ⟨i, region, hfirst, _, heq⟩ | ⟨hall, heq⟩
    · rw [heq] at hmatched ⊢
      obtain ⟨hcount, hsame⟩ := of_decide_eq_true hmatched
      refine ⟨region, ⟨hcount ▸ hfirst, by omega, hsame, ?_⟩, Nat.le_of_eq hcount⟩
      rw [hcount]
      exact hshort
    · rw [heq] at hmatched ⊢
      obtain ⟨region, hover, hle⟩ := h.left_over hmatched fun other hother => Nat.le_of_lt_succ (hall other hother)
      exact ⟨region, hover, Nat.le_succ_of_le hle⟩
  · intro i region hover hle
    rcases h.passed.match_regions_spec with ⟨k, found, hfirst, _, heq⟩ | ⟨hall, heq⟩
    · have hbound := hover.last found (List.mem_of_getElem? hfirst.get)
      have hlong := hfirst.long
      have hcount : region.state_count = depth + 1 := by omega
      have hfirst' := hover.first
      rw [hcount] at hfirst'
      obtain ⟨rfl, rfl⟩ := hfirst.unique hfirst'
      rw [heq, decide_eq_true ⟨hcount, hover.same⟩]
    · have hlt := hall region (List.mem_of_getElem? hover.first.get)
      rw [heq]
      exact h.matched i region hover (Nat.le_of_lt_succ hlt)

end RegionMatch.Stands

/-- A White node and its SimNode have paths of one length. -/
theorem Measured.seedReads_iff {t : MctsTree} (h : Measured t) (ht : Linked t) {v : NodeId} {n : GNode}
    (hv : t.nodes[v]? = some n) (q : queue_entry) (response_codes : List UInt32) (region_index : Nat) :
    t.SeedReads v q response_codes region_index ↔ (t.colour? v = some .White → ∀ region,
      q.regions[region_index]? = some region → region.state_count < response_codes.length →
      n.data.depth ≤ (region.state_sequence.getD []).length) := by
  rw [MctsTree.colour?_eq hv, Option.some.injEq]
  constructor
  · intro hreads hwhite region hregion hshort
    obtain ⟨s, m, hsim, hs, _⟩ := ht.sim hv hwhite
    rw [TreeNodeData.depth_of_ne (by simp [hwhite])]
    exact (hreads n m s region hv hwhite hsim hs hregion hshort).2
  · intro hall n' m s region hv' hwhite hsim hs hregion hshort
    rw [hv] at hv'
    cases hv'
    have hlen := hall hwhite region hregion hshort
    rw [TreeNodeData.depth_of_ne (by simp [hwhite])] at hlen
    rw [h.simulation hv hwhite hsim hs]
    exact ⟨hlen, hlen⟩

/-- What an iteration reads of the regions of the entry: of the one it compares with, and, where a
match is left over, of the matched one if a seed is stored. The other reads always succeed. -/
theorem Walk.Measured.reads_iff {q : queue_entry} {response_codes : List UInt32} {path_index : Nat} {code : UInt32}
    {s : Walk} (h : s.Measured q path_index) (hstands : s.regions.Stands q response_codes path_index)
    (hcode : response_codes[path_index]? = some code) :
    s.Reads q response_codes path_index code ↔
      (∀ i region, IsFirstLong (scanned_regions q response_codes) (path_index + 1) i region →
        region.state_count ≤ 4 * response_codes.length) ∧
      ∀ i region, LeftOver q response_codes i region → region.state_count ≤ path_index →
        (s.dyed q response_codes path_index code).colour? (s.next path_index response_codes.length code) = some .White →
        path_index + 1 ≤ (region.state_sequence.getD []).length := by
  have hlt := (List.getElem?_eq_some_iff.mp hcode).1
  obtain ⟨hlinked, hmeasured, n, hn, hdepth⟩ := h.dyed (q := q) hlt code
  have hvisited := h.visit hcode
  -- the path of the node is no longer than the response
  have hpath : ∀ m, (visit q response_codes path_index code s).tree.nodes[(visit q response_codes path_index code s).tree_node]? =
      some m → m.data.path_len ≤ response_codes.length := by
    intro m hm
    have hle := m.data.path_len_le_depth
    rw [hvisited.here m hm] at hle
    omega
  have hdye : s.Reads q response_codes path_index code ↔ CompareReads q response_codes path_index s.regions ∧
      ((match_regions q response_codes path_index s.regions).matched_exactly = true →
        (s.dyed q response_codes path_index code).SeedReads (s.next path_index response_codes.length code) q response_codes
          (match_regions q response_codes path_index s.regions).matching_region_index) := by
    constructor
    · rintro ⟨hcompare, hdye, _⟩
      refine ⟨hcompare, fun hmatched => ?_⟩
      rw [← Walk.flip_eq_dyed hmatched]
      exact hdye hmatched
    · rintro ⟨hcompare, hreads⟩
      refine ⟨hcompare, fun hmatched => ?_, hpath⟩
      have hseed := hreads hmatched
      rw [← Walk.flip_eq_dyed hmatched] at hseed
      exact hseed
  rw [hdye, hstands.passed.compareReads_iff, hmeasured.seedReads_iff hlinked hn, hdepth]
  apply and_congr_right'
  rcases hstands.passed.match_regions_spec with ⟨i, region, hfirst, _, heq⟩ | ⟨hall, heq⟩
  · -- the region just found has all the codes that are read, and nothing is left over
    constructor
    · intro _ k other hover hle
      have hbound := hover.last region (List.mem_of_getElem? hfirst.get)
      have hlong := hfirst.long
      omega
    · intro _ hmatched _ found hfound _
      rw [heq] at hmatched hfound
      have hcount := (of_decide_eq_true hmatched).1
      rw [get_of_live (get_of_scanned hfirst.get).1] at hfound
      cases hfound
      rw [← hcount]
      exact region.allocated
  · rw [heq]
    constructor
    · intro hreads i region hover hle hwhite
      have hmatch := hstands.matched i region hover hle
      have hget := get_of_live (get_of_scanned hover.first.get).1
      exact hreads (by rw [hmatch]) hwhite region (by rw [hmatch]; exact hget) (by omega)
    · intro hreads hmatched hwhite found hfound _
      obtain ⟨region, hover, hle⟩ := hstands.left_over hmatched fun other hother => Nat.le_of_lt_succ (hall other hother)
      rw [get_of_live (get_of_scanned hover.first.get).1] at hfound
      cases hfound
      exact hreads _ found hover hle hwhite

end aflnet.mcts
