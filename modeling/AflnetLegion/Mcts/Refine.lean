import AflnetLegion.Mcts.Visit

open Checked

namespace aflnet.mcts

@[simp] theorem MctsTree.length_dye (t : MctsTree) (v : NodeId) (path : List UInt32) :
    (t.dye v path).nodes.length = t.nodes.length + 1 := by
  simp [MctsTree.dye]

/-- A node for a response code makes the memory longer, by two nodes if it is White. -/
theorem MctsTree.length_lt_append (t : MctsTree) (v : NodeId) (code : UInt32) (white : Bool) (path : List UInt32) :
    t.nodes.length < (t.append v code white path).nodes.length := by
  cases white with
  | false => simp [MctsTree.append]
  | true =>
    rw [MctsTree.append, if_pos rfl, MctsTree.length_dye, MctsTree.length_add]
    omega

@[simp] theorem MctsTree.length_seed (t : MctsTree) (v : NodeId) (q : queue_entry) (region_index : Nat) :
    (t.seed v q region_index).nodes.length = t.nodes.length := by
  rw [MctsTree.seed]
  split <;> simp

theorem MctsTree.length_le_flip (t : MctsTree) (v : NodeId) (response_codes : List UInt32) (path_index : Nat) :
    t.nodes.length ≤ (t.flip v response_codes path_index).nodes.length := by
  rw [MctsTree.flip]
  split <;> simp

@[simp] theorem MctsTree.length_seed_matched (t : MctsTree) (v : NodeId) (q : queue_entry)
    (response_codes : List UInt32) (region_index : Nat) :
    (t.seed_matched v q response_codes region_index).nodes.length = t.nodes.length := by
  rw [MctsTree.seed_matched]
  split <;> simp

theorem MctsTree.length_le_dye_and_seed (t : MctsTree) (v : NodeId) (q : queue_entry) (response_codes : List UInt32)
    (path_index : Nat) (regions : RegionMatch) :
    t.nodes.length ≤ (t.dye_and_seed v q response_codes path_index regions).nodes.length := by
  have hflip := t.length_le_flip v response_codes path_index
  rw [MctsTree.dye_and_seed]
  split <;> simp [hflip]

theorem MctsTree.getElem?_of_lt {t : MctsTree} {v : NodeId} (h : v < t.nodes.length) :
    ∃ n, t.nodes[v]? = some n := ⟨_, List.getElem?_eq_getElem h⟩

theorem MctsTree.lt_of_getElem? {t : MctsTree} {v : NodeId} {n : GNode} (h : t.nodes[v]? = some n) :
    v < t.nodes.length := (List.getElem?_eq_some_iff.mp h).1

/-- A path and the region that should begin with it are written to the log and compared. The
path is there; the array of the region may have fewer codes. -/
theorem compare_path_guarded (region : region_t) {path : List UInt32} {count : Nat} (hcount : count ≤ 4 * path.length)
    {site : Assertion} (hsite : MayFail site ∧ ¬ OutOfBounds site) (t : MctsTree) :
    Guarded (path.length ≤ (region.state_sequence.getD []).length) MayFail OutOfBounds (do
      read_states region path.length
      let same ← memcmp (region.state_sequence.getD []) path count
      log_assert (same = true) site
      pure t) fun t' => t' = t := by
  have hassert : ∀ same : Bool, Guarded True MayFail OutOfBounds (do log_assert (same = true) site; pure t) fun t' => t' = t :=
    fun _ => Guarded.bind_holds (log_assert_holds hsite) fun _ _ => Guarded.pure trivial rfl
  have hcompare := (memcmp_guarded (region.state_sequence.getD []) path count).bind fun same _ => hassert same
  refine ((read_states_guarded region path.length).bind fun _ _ => hcompare).congr ?_
  exact ⟨fun hall => hall.1, fun hread => ⟨hread, ⟨by omega, hcount⟩, trivial⟩⟩

/-- A seed is stored. The log line is right if the region's array has as many codes as the path
of the SimNode. -/
theorem Linked.add_seed_to_node_holds {t : MctsTree} {s : NodeId} {m : GNode} {q : queue_entry} {region_index : Nat}
    (hs : t.nodes[s]? = some m) (hrange : region_index < q.regions.length) :
    Guarded (m.data.path_len ≤ (q.regions[region_index].state_sequence.getD []).length) MayFail OutOfBounds
      (add_seed_to_node t (construct_seed_with_queue_entry q) region_index s) fun t' =>
      t' = t.modify s fun d => d.with_seed (construct_seed_with_queue_entry q) region_index := by
  rw [add_seed_to_node, get_tree_node_data_eq hs, pure_bind]
  apply Guarded.bind_holds (log_assert_holds (by simp [MayFail, OutOfBounds]))
  intro _ _
  rw [set_tree_node_data_eq hs, pure_bind]
  have hregion : (construct_seed_with_queue_entry q).q.regions[region_index]? = some q.regions[region_index] :=
    List.getElem?_eq_getElem hrange
  rw [hregion]
  apply Guarded.bind_holds (log_assert_holds (by simp [MayFail, OutOfBounds]))
  intro _ _
  apply Guarded.bind_holds (log_assert_holds (by simp [MayFail, OutOfBounds]))
  intro _ _
  exact compare_path_guarded _ (Nat.le_mul_of_pos_left _ (by decide)) (by simp [MayFail, OutOfBounds]) _

/-- Turning an exactly matched Black node White keeps the pointers coherent. -/
theorem Linked.flip {t : MctsTree} (h : Linked t) {v : NodeId} {n : GNode} (hv : t.nodes[v]? = some n)
    (response_codes : List UInt32) (path_index : Nat) : Linked (t.flip v response_codes path_index) := by
  rw [MctsTree.flip, MctsTree.colour?_eq hv]
  split
  · rename_i hblack
    exact h.dye hv (by simp [Option.some.inj hblack.1]) _
  · exact h

theorem flip_black_eq {t : MctsTree} {v : NodeId} {n : GNode} (hv : t.nodes[v]? = some n)
    (response_codes : List UInt32) (path_index : Nat) :
    flip_black t v response_codes path_index = pure (t.flip v response_codes path_index) := by
  rw [flip_black, get_tree_node_data_eq hv, pure_bind, MctsTree.flip, MctsTree.colour?_eq hv]
  by_cases hblack : n.data.colour = .Black ∧ path_index + 1 ≠ response_codes.length
  · have hwhite := MctsTree.getElem?_modify_self hv fun d => { d with colour := .White }
    have hparent := MctsTree.getElem?_add_parent (.fresh 999 .Golden (response_codes.take (path_index + 1))) hwhite
    rw [if_pos hblack, if_pos (by simpa using hblack), set_tree_node_data_eq hv, pure_bind,
      append_child_golden_eq hwhite, pure_bind]
    dsimp only
    rw [set_tree_node_data_eq hparent, MctsTree.length_modify,
      MctsTree.modify_add (MctsTree.lt_of_getElem? hv), MctsTree.modify_modify]
    rfl
  · rw [if_neg hblack, if_neg (by simpa using hblack)]

/-- Where a seed for the region is stored below a White node, the array of the region has as
many codes as the paths of the SimNode and of the node. -/
def MctsTree.SeedReads (t : MctsTree) (v : NodeId) (q : queue_entry) (response_codes : List UInt32)
    (region_index : Nat) : Prop :=
  ∀ (n m : GNode) (s : NodeId) (region : region_t), t.nodes[v]? = some n → n.data.colour = .White →
    n.data.simulation_child = some s → t.nodes[s]? = some m → q.regions[region_index]? = some region →
    region.state_count < response_codes.length →
    m.data.path_len ≤ (region.state_sequence.getD []).length ∧ n.data.path_len ≤ (region.state_sequence.getD []).length

/-- What storing a seed reads of its region: as many codes as the path of the SimNode has, which
is as long as that of the White node above it. -/
theorem MctsTree.seedReads_iff {t : MctsTree} {v s : NodeId} {n m : GNode} (hv : t.nodes[v]? = some n)
    (hwhite : n.data.colour = .White) (hsim : n.data.simulation_child = some s) (hs : t.nodes[s]? = some m)
    {q : queue_entry} {response_codes : List UInt32} {region_index : Nat} (hrange : region_index < q.regions.length)
    (hshort : q.regions[region_index].state_count < response_codes.length) :
    t.SeedReads v q response_codes region_index ↔
      m.data.path_len ≤ (q.regions[region_index].state_sequence.getD []).length ∧
      n.data.path_len ≤ (q.regions[region_index].state_sequence.getD []).length := by
  constructor
  · intro h
    exact h n m s _ hv hwhite hsim hs (List.getElem?_eq_getElem hrange) hshort
  · intro h n' m' s' region hv' _ hsim' hs' hregion _
    rw [hv] at hv'
    cases hv'
    rw [hsim] at hsim'
    cases hsim'
    rw [hs] at hs'
    cases hs'
    rw [List.getElem?_eq_getElem hrange] at hregion
    cases hregion
    exact h

/-- Storing a seed never reads an unset simulation child. -/
theorem Linked.add_matched_seed_holds {t : MctsTree} (h : Linked t) {v : NodeId} {n : GNode}
    (hv : t.nodes[v]? = some n) {q : queue_entry} (response_codes : List UInt32) {region_index : Nat}
    (hrange : region_index < q.regions.length) :
    Guarded (t.SeedReads v q response_codes region_index) MayFail OutOfBounds
      (add_matched_seed t v q response_codes region_index) fun t' =>
      t' = t.seed_matched v q response_codes region_index := by
  rw [add_matched_seed, get_tree_node_data_eq hv, pure_bind, MctsTree.seed_matched, MctsTree.colour?_eq hv,
    List.getElem?_eq_getElem hrange]
  by_cases hwhite : n.data.colour = .White
  · rw [if_pos hwhite]
    by_cases hshort : q.regions[region_index].state_count < response_codes.length
    · simp only [hwhite, hshort, Option.any_some, decide_true, and_self, if_true]
      obtain ⟨s, m, hsim, hs, hgolden, hget⟩ := h.get_simulation_child_eq hv hwhite
      rw [hget, pure_bind, MctsTree.seed_eq hv hsim]
      refine Guarded.congr ((Linked.add_seed_to_node_holds hs hrange).bind ?_)
        (MctsTree.seedReads_iff hv hwhite hsim hs hrange hshort).symm
      rintro seeded rfl
      have hseeded := h.modify (f := fun d => d.with_seed (construct_seed_with_queue_entry q) region_index)
        hs rfl rfl
      have hne : s ≠ v := MctsTree.ne_of_colour_ne hs hv (by simp [hgolden, hwhite])
      obtain ⟨s', m', _, _, _, hget'⟩ := hseeded.get_simulation_child_eq
        (by rw [MctsTree.getElem?_modify_ne t hne, hv]) hwhite
      rw [hget', pure_bind]
      apply Guarded.bind_holds (log_assert_holds (by simp [MayFail, OutOfBounds]))
      intro _ _
      exact compare_path_guarded _ (Nat.le_refl _) (by simp [MayFail, OutOfBounds]) _
    · simp only [hwhite, hshort, Option.any_some, decide_false, Bool.false_eq_true, and_false, if_false]
      refine Guarded.pure ?_ rfl
      intro _ _ _ region _ _ _ _ hregion hless
      rw [List.getElem?_eq_getElem hrange] at hregion
      cases hregion
      exact absurd hless hshort
  · simp only [hwhite, if_false, Option.some.injEq, false_and]
    refine Guarded.pure ?_ rfl
    intro n' _ _ _ hv' hwhite'
    rw [hv] at hv'
    cases hv'
    exact absurd hwhite' hwhite

/-- What an iteration reads of the region it has matched exactly. Without an exact match it
reads none. -/
def MctsTree.DyeReads (t : MctsTree) (v : NodeId) (q : queue_entry) (response_codes : List UInt32) (path_index : Nat)
    (regions : RegionMatch) : Prop :=
  regions.matched_exactly = true →
    (t.flip v response_codes path_index).SeedReads v q response_codes regions.matching_region_index

/-- What the second round does after an exact match, with the exact condition under which all of
its reads are in bounds. -/
theorem Linked.dye_and_seed_holds {t : MctsTree} (h : Linked t) {v : NodeId} {n : GNode}
    (hv : t.nodes[v]? = some n) {q : queue_entry} (response_codes : List UInt32) (path_index : Nat)
    {regions : RegionMatch} (hrange : regions.matching_region_index < q.regions.length) :
    Guarded (t.DyeReads v q response_codes path_index regions) MayFail OutOfBounds
      (dye_and_seed t v q response_codes path_index regions) fun t' =>
      t' = t.dye_and_seed v q response_codes path_index regions := by
  rw [dye_and_seed, MctsTree.dye_and_seed]
  split
  · rename_i hmatched
    rw [flip_black_eq hv, pure_bind]
    obtain ⟨n', hv'⟩ := MctsTree.getElem?_of_lt
      (Nat.lt_of_lt_of_le (MctsTree.lt_of_getElem? hv) (t.length_le_flip v response_codes path_index))
    exact ((h.flip hv response_codes path_index).add_matched_seed_holds hv' response_codes hrange).congr
      ⟨fun hreads _ => hreads, fun hreads => hreads hmatched⟩
  · rename_i hmatched
    exact Guarded.pure (fun hyes => absurd hyes hmatched) rfl

theorem Linked.dye_and_seed {t : MctsTree} (h : Linked t) {v : NodeId} {n : GNode} (hv : t.nodes[v]? = some n)
    (q : queue_entry) (response_codes : List UInt32) (path_index : Nat) (regions : RegionMatch) :
    Linked (t.dye_and_seed v q response_codes path_index regions) := by
  have hflip := h.flip hv response_codes path_index
  rw [MctsTree.dye_and_seed]
  split
  · rw [MctsTree.seed_matched]
    split
    · exact hflip.seed v q _
    · exact hflip
  · exact h

/-- What holds between two iterations of the second round, whatever codes the response has: the
pointers are coherent, the node is there, and the region is one in use. -/
structure Walk.Ready (q : queue_entry) (s : Walk) : Prop where
  linked : Linked s.tree
  present : s.tree_node < s.tree.nodes.length
  in_range : s.regions.matching_region_index < q.region_count

/-- The scan never leaves the regions that it was given. -/
theorem scan_regions_in_range (response_codes : List UInt32) (path_index bound : Nat) (current : RegionMatch)
    (hcurrent : current.matching_region_index < bound) (regions : List region_t) (region_index : Nat)
    (hregions : region_index + regions.length ≤ bound) :
    (scan_regions response_codes path_index regions region_index current).matching_region_index < bound := by
  induction regions generalizing region_index with
  | nil => exact hcurrent
  | cons region regions ih =>
    rw [List.length_cons] at hregions
    rw [scan_regions]
    split
    · dsimp only
      omega
    · exact ih (region_index + 1) (by omega)

/-- The region it stops at is one in use, so its fields may be read. -/
theorem match_regions_in_range (q : queue_entry) (response_codes : List UInt32) (path_index : Nat)
    {current : RegionMatch} (hcurrent : current.matching_region_index < q.region_count) :
    (match_regions q response_codes path_index current).matching_region_index < q.region_count := by
  rw [match_regions]
  by_cases hstart : current.matching_region_index + current.matched_exactly.toNat ≤
      (scanned_regions q response_codes).length
  · apply scan_regions_in_range _ _ _ _ hcurrent
    have hlen : (scanned_regions q response_codes).length ≤ q.region_count := by
      rw [scanned_regions, List.length_take, q.length_live_regions]
      exact Nat.min_le_right _ _
    rw [List.length_drop]
    omega
  · rw [List.drop_eq_nil_of_le (by omega)]
    exact hcurrent

/-- Clearing the flag of a node is one assignment or none. -/
theorem Walk.Ready.unmark {q : queue_entry} {s : Walk} (h : s.Ready q) (path_index len_codes : Nat) :
    Linked (s.tree.unmark s.tree_node path_index len_codes) ∧
      (s.tree.unmark s.tree_node path_index len_codes).nodes.length = s.tree.nodes.length ∧
      unmark_interior s.tree s.tree_node path_index len_codes =
        pure (s.tree.unmark s.tree_node path_index len_codes) := by
  obtain ⟨n, hn⟩ := MctsTree.getElem?_of_lt h.present
  rw [unmark_interior, get_tree_node_data_eq hn, pure_bind, MctsTree.unmark]
  by_cases hlast : path_index ≠ len_codes - 1
  · rw [if_pos hlast]
    refine ⟨h.linked.modify hn rfl rfl, by simp, ?_⟩
    by_cases hflag : n.data.fully_explored = true
    · rw [if_pos ⟨hlast, hflag⟩, set_tree_node_data_eq hn]
    · rw [if_neg (fun hboth => hflag hboth.2), MctsTree.modify_eq_self hn]
      cases hdata : n.data
      simp_all
  · rw [if_neg hlast, if_neg (fun hboth => hlast hboth.1)]
    exact ⟨h.linked, rfl, rfl⟩

/-- The scan compares with the first region that is long enough. The response has as many bytes
as that region has codes. -/
def CompareReads (q : queue_entry) (response_codes : List UInt32) (path_index : Nat) (current : RegionMatch) : Prop :=
  ∀ region, ((scanned_regions q response_codes).drop (current.matching_region_index + current.matched_exactly.toNat)).find?
    (fun region => path_index + 1 ≤ region.state_count) = some region → region.state_count ≤ 4 * response_codes.length

/-- The comparison reads as many bytes as the region has codes, from the region and from the
response. Only the response can be too short for that. -/
theorem compare_codes_holds (response_codes : List UInt32) (path_index : Nat) (regions : List region_t) :
    Guarded (∀ region, regions.find? (fun region => path_index + 1 ≤ region.state_count) = some region →
      region.state_count ≤ 4 * response_codes.length) MayFail OutOfBounds
      (compare_codes response_codes path_index regions) fun _ => True := by
  induction regions with
  | nil => exact Guarded.pure (by simp) trivial
  | cons region regions ih =>
    rw [compare_codes, List.find?_cons]
    by_cases hlong : path_index + 1 ≤ region.state_count
    · have hthere := region.allocated
      rw [if_pos hlong, decide_eq_true hlong]
      refine ((memcmp_guarded _ _ _).bind fun _ _ => Guarded.pure trivial trivial).congr ?_
      simp only [Option.some.injEq, forall_eq', and_true]
      omega
    · rw [if_neg hlong, decide_eq_false hlong]
      exact ih

theorem compare_regions_holds (q : queue_entry) (response_codes : List UInt32) (path_index : Nat)
    (current : RegionMatch) : Guarded (CompareReads q response_codes path_index current) MayFail OutOfBounds
      (compare_regions q response_codes path_index current) fun _ => True :=
  compare_codes_holds response_codes path_index _

/-- What an iteration reads of the regions, and of the response at the node it ends at, is there. -/
def Walk.Reads (q : queue_entry) (response_codes : List UInt32) (path_index : Nat) (code : UInt32) (s : Walk) : Prop :=
  let t := s.tree.unmark s.tree_node path_index response_codes.length
  let found := t.child_with_id s.tree_node code
  let new_node := s.new_node || found.isNone
  let regions := match_regions q response_codes path_index s.regions
  let tree_node := if new_node then t.nodes.length else found.getD s.tree_node
  let t := if new_node
    then t.append s.tree_node code regions.matched_exactly (response_codes.take (path_index + 1)) else t
  CompareReads q response_codes path_index s.regions ∧ t.DyeReads tree_node q response_codes path_index regions ∧
    ∀ n, (t.dye_and_seed tree_node q response_codes path_index regions).nodes[tree_node]? = some n →
      n.data.path_len ≤ response_codes.length

/-- The step to the next node: the child that was found, or a new one with the path walked so
far. -/
theorem step_down_eq {t : MctsTree} {v : NodeId} {n : GNode} (hv : t.nodes[v]? = some n)
    (found : Option NodeId) (new_node white : Bool) {code : UInt32} {path : List UInt32}
    (hpath : path.getLast? = some code) :
    step_down t v found (new_node || found.isNone) code (if white then .White else .Black) path =
      pure (if new_node || found.isNone then t.append v code white path else t,
        if new_node || found.isNone then t.nodes.length else found.getD v) := by
  cases found with
  | none =>
    simp only [step_down, Option.isNone_none, Bool.or_true, if_true]
    exact append_child_eq hv hpath white
  | some child_node =>
    cases new_node with
    | false => rfl
    | true =>
      simp only [step_down, Bool.true_or, if_true]
      exact append_child_eq hv hpath white

/-- One iteration of the second round is `visit`; it can be continued, and its
node is not the root. -/
theorem second_round_step_holds {q : queue_entry} {s : Walk} (h : s.Ready q) {response_codes : List UInt32}
    (new_path : Bool) {path_index : Nat} {code : UInt32} (hcode : response_codes[path_index]? = some code) :
    Guarded (s.Reads q response_codes path_index code) MayFail OutOfBounds
      (second_round_step q response_codes new_path path_index code s) (fun s' =>
      s' = visit q response_codes path_index code s) ∧
    (visit q response_codes path_index code s).Ready q ∧
    (visit q response_codes path_index code s).tree_node ≠ ROOT := by
  obtain ⟨hlinked, hlength, hunmark⟩ := h.unmark path_index response_codes.length
  rw [second_round_step, hunmark, pure_bind]
  simp only [visit, Walk.Reads]
  generalize s.tree.unmark s.tree_node path_index response_codes.length = t at hlinked hlength ⊢
  obtain ⟨n, hn⟩ := MctsTree.getElem?_of_lt (hlength ▸ h.present)
  have hpath : (response_codes.take (path_index + 1)).getLast? = some code := by
    have hlt := (List.getElem?_eq_some_iff.mp hcode).1
    rw [List.getLast?_take, if_neg (by omega), Nat.add_sub_cancel, hcode]
    rfl
  have hregions := match_regions_in_range q response_codes path_index h.in_range
  rw [hlinked.exists_child_eq hn, pure_bind]
  have hfound : ∀ c, t.child_with_id s.tree_node code = some c → c < t.nodes.length ∧ c ≠ ROOT := by
    intro c hc
    obtain ⟨hmem, m, hm, _⟩ := hlinked.child_with_id_spec hn hc
    exact ⟨MctsTree.lt_of_getElem? hm, Nat.ne_of_gt (Nat.lt_of_le_of_lt (Nat.zero_le _)
      (hlinked.parent_lt_child hn hmem))⟩
  generalize t.child_with_id s.tree_node code = found at hfound ⊢
  generalize match_regions q response_codes path_index s.regions = regions at hregions ⊢
  have hnote : Holds (fun site => MayFail site ∧ ¬ OutOfBounds site) (note_missing found new_path) fun _ => True := by
    cases found with
    | none => exact log_assert_holds (by simp [MayFail, OutOfBounds])
    | some c => exact Holds.pure trivial
  have hstep := step_down_eq hn found s.new_node regions.matched_exactly hpath
  have hgrown : (if s.new_node || found.isNone then t.nodes.length else found.getD s.tree_node) <
      (if s.new_node || found.isNone then t.append s.tree_node code regions.matched_exactly
        (response_codes.take (path_index + 1)) else t).nodes.length ∧
      (if s.new_node || found.isNone then t.nodes.length else found.getD s.tree_node) ≠ ROOT := by
    cases hnew : (s.new_node || found.isNone) with
    | true =>
      exact ⟨t.length_lt_append _ _ _ _, Nat.ne_of_gt (Nat.lt_of_le_of_lt (Nat.zero_le _)
        (MctsTree.lt_of_getElem? hn))⟩
    | false =>
      cases found with
      | none => simp at hnew
      | some c => exact hfound c rfl
  have hlinked' : Linked (if s.new_node || found.isNone then t.append s.tree_node code regions.matched_exactly
      (response_codes.take (path_index + 1)) else t) := by
    split
    · exact hlinked.append hn _ _ _
    · exact hlinked
  generalize (if s.new_node || found.isNone then t.nodes.length else found.getD s.tree_node) = tree_node at hstep hgrown ⊢
  generalize (if s.new_node || found.isNone then t.append s.tree_node code regions.matched_exactly
    (response_codes.take (path_index + 1)) else t) = grown at hstep hgrown hlinked' ⊢
  obtain ⟨m, hm⟩ := MctsTree.getElem?_of_lt hgrown.1
  have hfinal := hlinked'.dye_and_seed hm q response_codes path_index regions
  have hpresent := Nat.lt_of_lt_of_le hgrown.1 (grown.length_le_dye_and_seed tree_node q response_codes path_index regions)
  refine ⟨?_, ⟨hfinal, hpresent, hregions⟩, hgrown.2⟩
  apply Guarded.bind_holds hnote
  intro _ _
  refine (compare_regions_holds q response_codes path_index s.regions).bind fun _ _ => ?_
  rw [hstep, pure_bind]
  refine (hlinked'.dye_and_seed_holds hm response_codes path_index (Nat.lt_of_lt_of_le hregions q.allocated)).bind ?_
  rintro t' rfl
  obtain ⟨k, hk⟩ := MctsTree.getElem?_of_lt hpresent
  rw [get_tree_node_data_eq hk, pure_bind]
  apply Guarded.bind_holds (log_assert_holds (by simp [MayFail, OutOfBounds]))
  intro _ _
  have hcodes : (4 * k.data.path_len ≤ 4 * k.data.path.length ∧ 4 * k.data.path_len ≤ 4 * response_codes.length) ∧ True ↔
      ∀ n, (grown.dye_and_seed tree_node q response_codes path_index regions).nodes[tree_node]? = some n →
        n.data.path_len ≤ response_codes.length := by
    rw [hk]
    constructor
    · rintro ⟨⟨_, hle⟩, _⟩ n hn
      cases hn
      omega
    · intro hall
      exact ⟨⟨Nat.le_refl _, Nat.mul_le_mul_left 4 (hall k rfl)⟩, trivial⟩
  refine Guarded.congr ((memcmp_guarded _ _ _).bind ?_) hcodes
  intro same _
  apply Guarded.bind_holds (log_assert_holds (by simp [MayFail, OutOfBounds]))
  intro _ _
  exact Guarded.pure trivial rfl

end aflnet.mcts
