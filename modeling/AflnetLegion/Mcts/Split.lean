import AflnetLegion.Mcts.Track

open Checked

namespace aflnet.mcts

/-- `*M2_region_count`, for M2 starting at a region index behind M1. Without
`FUZZ_M3` it is the run of regions annotated with as many codes as the first; with
it the subtraction is one of `u32` numbers. -/
def M2_region_count (FUZZ_M3 : Bool) (q : queue_entry) (M2_start_region_ID : Nat) : Nat :=
  if FUZZ_M3 then
    if M2_start_region_ID ≤ q.region_count then q.region_count - M2_start_region_ID
    else q.region_count + 4294967296 - M2_start_region_ID
  else
    match q.live_regions.drop M2_start_region_ID with
    | [] => 0
    | first :: rest => ((first :: rest).takeWhile fun region => region.state_count = first.state_count).length

/-- The regions M1 and M2 of a seed are separated by: `(*M2_start_region_ID, *M2_region_count)`.
M1 ends with the region that the seed was stored with; below the root there is no M1. -/
def find_M2_region (FUZZ_M3 : Bool) (t : MctsTree) (seed : seed_info_t) (tree_node : NodeId) : M (Nat × Nat) := do
  let n ← deref t tree_node
  match n.parent with
  | none => fail .null_dereference
  | some parent => do
    let p ← deref t parent
    if G_NODE_IS_ROOT p then pure (0, seed.q.region_count)
    else
      match seed.parent_index with
      | none => fail .unset_pointer
      | some parent_index =>
      match n.data.region_indices[parent_index]? with
      | none => fail .out_of_bounds
      | some region_index =>
      match seed.q.regions[region_index]? with
      | none => fail .out_of_bounds
      | some region => do
        let M2_count := M2_region_count FUZZ_M3 seed.q (region_index + 1)
        log_assert (1 ≤ M2_count) .M2_not_empty
        log_assert (n.data.path_len = region.state_count) .M1_reaches_node
        log_assert (memcmp_eq n.data.path (region.state_sequence.getD []) n.data.path_len = true) .M1_agrees_with_node
        pure (region_index + 1, M2_count)

/-- A region that is annotated with the whole path `x` and is not the last one. -/
def IsSplit (q : queue_entry) (region_index : Nat) (x : List UInt32) : Prop :=
  region_index + 1 < q.region_count ∧ ∃ region, q.live_regions[region_index]? = some region ∧ region.codes = x

/-- M2 has at least one region and stays within the regions of the entry. -/
theorem M2_region_count_bounds {q : queue_entry} {start : Nat} (h : start < q.region_count) (FUZZ_M3 : Bool) :
    1 ≤ M2_region_count FUZZ_M3 q start ∧ start + M2_region_count FUZZ_M3 q start ≤ q.region_count := by
  cases FUZZ_M3 with
  | true =>
    simp only [M2_region_count, if_true, if_pos (Nat.le_of_lt h)]
    omega
  | false =>
    have hlen : (q.live_regions.drop start).length = q.region_count - start := by simp
    simp only [M2_region_count, Bool.false_eq_true, if_false]
    cases hdrop : q.live_regions.drop start with
    | nil =>
      rw [hdrop, List.length_nil] at hlen
      omega
    | cons first rest =>
      rw [hdrop] at hlen
      have hle := (List.takeWhile_prefix (fun region : region_t => decide (region.state_count = first.state_count))
        (l := first :: rest)).length_le
      simp only [List.takeWhile_cons, decide_true, if_true, List.length_cons] at hle hlen ⊢
      omega

/-- What a SimNode below the root stores with each of its seeds: the place of the seed in the
node, and at the same place the index of a region that splits the seed at the path of the node.
-/
def MctsTree.SplitsAt (t : MctsTree) (v : NodeId) : Prop :=
  ∀ n, t.nodes[v]? = some n → n.data.colour = .Golden → n.parent ≠ some ROOT →
    n.data.region_indices.length = n.data.seeds.length ∧
    ∀ (i : Nat) (seed : seed_info_t), n.data.seeds[i]? = some seed → seed.parent_index = some i ∧
      ∃ region_index, n.data.region_indices[i]? = some region_index ∧ IsSplit seed.q region_index n.data.path

/-- A seed with its split gives legal regions for M2 and fails no assertion. -/
theorem find_M2_region_holds {t : MctsTree} (h : Shape t) {s : NodeId} {n : GNode} (hs : t.nodes[s]? = some n)
    (hgolden : n.data.colour = .Golden) (hroot : n.parent ≠ some ROOT) {seed : seed_info_t} {i region_index : Nat}
    (hparent_index : seed.parent_index = some i) (hindex : n.data.region_indices[i]? = some region_index)
    (hsplit : IsSplit seed.q region_index n.data.path) (FUZZ_M3 : Bool) :
    Holds (fun _ => False) (find_M2_region FUZZ_M3 t seed s) fun M2 =>
      1 ≤ M2.2 ∧ M2.1 + M2.2 ≤ seed.q.region_count := by
  obtain ⟨hlt, region, hregion, hcodes⟩ := hsplit
  obtain ⟨_, _, u, m, hparent, hm, _⟩ := h.golden hs hgolden
  have hinner : ¬ G_NODE_IS_ROOT m = true := by
    intro htrue
    have hnone : m.parent = none := by
      rw [G_NODE_IS_ROOT, Option.isNone_iff_eq_none] at htrue
      exact htrue
    exact hroot (by rw [hparent, h.eq_root_of_parent_eq_none hm hnone])
  have hget : seed.q.regions[region_index]? = some region := by
    rw [queue_entry.live_regions, List.getElem?_take, if_pos (by omega)] at hregion
    exact hregion
  have hlen : n.data.path_len = region.state_count := by
    rw [TreeNodeData.path_len, ← hcodes, region.length_codes]
  have hsame : memcmp_eq n.data.path (region.state_sequence.getD []) n.data.path_len = true := by
    have htake : n.data.path.take region.state_count = (region.state_sequence.getD []).take region.state_count := by
      rw [← hcodes, region_t.codes, List.take_take, Nat.min_self]
    exact memcmp_eq_of_take_eq htake (by omega)
  obtain ⟨hcount, hbound⟩ := M2_region_count_bounds hlt FUZZ_M3
  rw [find_M2_region, deref_eq hs, pure_bind, hparent]
  dsimp only
  rw [deref_eq hm, pure_bind, if_neg hinner, hparent_index]
  dsimp only
  rw [hindex]
  dsimp only
  rw [hget]
  simp only [log_assert, soft_assert_of_true hcount, soft_assert_of_true hlen, soft_assert_of_true hsame, pure_bind]
  exact Holds.pure ⟨hcount, hbound⟩

/-- The calls of `Expansion` that store legal seeds only. When the entry has more
regions than the response has codes, the last region scanned has to be annotated
with the initial state or with the whole response, or else with all but the last
code of a response whose node exists and is Black. -/
structure StoresSplits (t : MctsTree) (q : queue_entry) (response_codes : List UInt32) : Prop extends
    WellAnnotated t q response_codes where
  sorted : q.live_regions.Pairwise fun a b => a.state_count ≤ b.state_count
  reached : ∀ region, q.live_regions[response_codes.length - 1]? = some region →
    region.state_count = 1 ∨ region.state_count = response_codes.length ∨
      (region.state_count + 1 = response_codes.length ∧ ∃ v, t.At v response_codes ∧ t.colour? v = some .Black)

namespace StoresSplits

variable {t : MctsTree} {q : queue_entry} {response_codes : List UInt32} {depth : Nat}

/-- A region that is annotated up to the node splits the entry there: the last region is
annotated with the whole response, and so is not the one that was found. -/
theorem split_of_found (h : StoresSplits t q response_codes) {region_index : Nat}
    (hindex : (scanned_lengths q response_codes)[region_index]? = some depth)
    (hshort : q.regions[region_index]?.any fun r => r.state_count < response_codes.length) :
    IsSplit q region_index (response_codes.take depth) := by
  rw [scanned_lengths, List.getElem?_map] at hindex
  obtain ⟨region, hscanned, hcount⟩ := Option.map_eq_some_iff.mp hindex
  have hregion := (get_of_scanned hscanned).1
  have hrange : region_index < q.region_count := by
    have hlt := (List.getElem?_eq_some_iff.mp hregion).1
    rwa [q.length_live_regions] at hlt
  have htake := List.prefix_iff_eq_take.mp (h.prefixed region (List.mem_of_getElem? hregion)).2
  rw [region.length_codes, hcount] at htake
  refine ⟨?_, region, hregion, htake⟩
  by_contra hlast
  have hget : q.live_regions.getLast? = some region := by
    rw [List.getLast?_eq_getElem?, q.length_live_regions, ← hregion]
    congr 1
    omega
  have hcomplete := h.complete
  rw [hget, Option.map_some] at hcomplete
  have hfull := congrArg List.length (Option.some.inj hcomplete)
  rw [region.length_codes] at hfull
  rw [get_of_live hregion, Option.any_some, decide_eq_true_eq] at hshort
  omega

/-- The regions are ordered by their annotations, so that the last one scanned has the
longest. -/
theorem le_last_scanned (h : StoresSplits t q response_codes) {region : region_t}
    (hregion : region ∈ scanned_regions q response_codes) (hlive : response_codes.length - 1 < q.live_regions.length) :
    region.state_count ≤ q.live_regions[response_codes.length - 1].state_count := by
  obtain ⟨j, hj⟩ := List.mem_iff_getElem?.mp hregion
  rw [scanned_regions, List.getElem?_take] at hj
  split at hj
  · obtain ⟨hjlt, rfl⟩ := List.getElem?_eq_some_iff.mp hj
    rcases Nat.lt_or_ge j (response_codes.length - 1) with hlt | hge
    · exact List.pairwise_iff_getElem.mp h.sorted j _ hjlt hlive hlt
    · have heq : j = response_codes.length - 1 := by omega
      subst heq
      exact Nat.le_refl _
  · cases hj

/-- All regions scanned are too short for the node, although one of them is longer than
the initial state: then the node is the last one of the response, and an old one. -/
theorem stale_of_short (h : StoresSplits t q response_codes) (hle : depth ≤ response_codes.length)
    (hsmall : ∀ region ∈ scanned_regions q response_codes, region.state_count < depth)
    (hlong : ∃ region ∈ scanned_regions q response_codes, 2 ≤ region.state_count) :
    depth = response_codes.length ∧ ∃ v, t.At v response_codes ∧ t.colour? v = some .Black := by
  obtain ⟨last, hlast, hfull⟩ := Option.map_eq_some_iff.mp h.complete
  have hfull' : last.state_count = response_codes.length := by rw [← last.length_codes, hfull]
  have hmore : response_codes.length < q.region_count := by
    by_contra hfew
    have hscanned : last ∈ scanned_regions q response_codes := by
      rw [scanned_regions, List.take_of_length_le (by rw [q.length_live_regions]; omega)]
      exact List.mem_of_getLast? hlast
    have hlt := hsmall last hscanned
    omega
  have hlive : response_codes.length - 1 < q.live_regions.length := by
    rw [q.length_live_regions]
    omega
  obtain ⟨region, hregion, htwo⟩ := hlong
  have hregion_small := hsmall region hregion
  have hscanned : q.live_regions[response_codes.length - 1] ∈ scanned_regions q response_codes := by
    refine List.mem_of_getElem? (i := response_codes.length - 1) ?_
    rw [scanned_regions, List.getElem?_take, if_pos (by omega), List.getElem?_eq_getElem hlive]
  have hbound := hsmall _ hscanned
  have hmax := h.le_last_scanned hregion hlive
  rcases h.reached _ (List.getElem?_eq_getElem hlive) with hone | hall | ⟨hbut, hblack⟩
  · omega
  · omega
  · exact ⟨by omega, hblack⟩

/-- A seed is stored with a region that ends at the node, unless the match is left
over from a shorter prefix. -/
theorem split_or_stale (h : StoresSplits t q response_codes) (hdepth : 2 ≤ depth) (hle : depth ≤ response_codes.length)
    {regions : RegionMatch} (hcovers : regions.Covers q response_codes depth) (hexact : regions.matched_exactly = true)
    (hshort : q.regions[regions.matching_region_index]?.any fun r => r.state_count < response_codes.length) :
    IsSplit q regions.matching_region_index (response_codes.take depth) ∨
      (depth = response_codes.length ∧ ∃ v, t.At v response_codes ∧ t.colour? v = some .Black) := by
  have hmatch := (hcovers.exact_iff.mp hexact).2
  rw [exact_at] at hmatch
  cases hfind : (scanned_lengths q response_codes).find? fun len => depth ≤ len with
  | some len =>
    rw [hfind] at hmatch
    have hlen : len = depth := by simpa using hmatch
    have hindex := hcovers.found hdepth len hfind
    rw [hlen] at hindex
    exact Or.inl (h.split_of_found hindex hshort)
  | none =>
    rw [hfind] at hmatch
    obtain ⟨len, hmem, htwo⟩ := List.any_eq_true.mp hmatch
    rw [decide_eq_true_eq] at htwo
    obtain ⟨region, hregion, rfl⟩ := List.mem_map.mp hmem
    refine Or.inr (h.stale_of_short hle ?_ ⟨region, hregion, htwo⟩)
    intro short hscanned
    have hnot := List.find?_eq_none.mp hfind short.state_count (List.mem_map.mpr ⟨short, hscanned, rfl⟩)
    simpa using hnot

end StoresSplits

namespace MctsTree.SplitsAt

variable {t t' : MctsTree} {v : NodeId}

theorem of_skeleton (h : t.SplitsAt v) (hsame : SameBy GNode.skeleton t t') : t'.SplitsAt v := by
  intro n' hn' hgolden hroot
  obtain ⟨n, hn, heq⟩ := hsame.symm.exists_node hn'
  simp only [GNode.skeleton, Skeleton.mk.injEq, GNode.links, Links.mk.injEq] at heq
  obtain ⟨⟨hparent, _, hcolour, _⟩, _, hpath, hseeds, hindices⟩ := heq
  obtain ⟨hlen, hall⟩ := h n hn (hcolour.trans hgolden) (by rw [hparent]; exact hroot)
  have hlen' := congrArg List.length hseeds
  rw [List.length_map, List.length_map] at hlen'
  refine ⟨by rw [← hindices, ← hlen', hlen], ?_⟩
  intro i seed hseed
  have hmap := congrArg (fun l => l[i]?) hseeds
  simp only [List.getElem?_map, hseed, Option.map_some] at hmap
  obtain ⟨old, hold, hpair⟩ := Option.map_eq_some_iff.mp hmap
  rw [Prod.mk.injEq] at hpair
  obtain ⟨hi, region_index, hindex, hsplit⟩ := hall i old hold
  exact ⟨hpair.2 ▸ hi, region_index, hindices ▸ hindex, hpair.1 ▸ hpath ▸ hsplit⟩

theorem add (h : t.SplitsAt v) (u : NodeId) {d : TreeNodeData} (hd : d.colour ≠ .Golden) : (t.add u d).SplitsAt v := by
  intro n hn hgolden hroot
  rcases MctsTree.getElem?_of_add hn with ⟨rfl, rfl⟩ | ⟨m, hm, _, hdata, hparent, _⟩
  · exact absurd hgolden hd
  · rw [hdata] at hgolden ⊢
    exact h m hm hgolden (by rw [← hparent]; exact hroot)

theorem dye (h : t.SplitsAt v) {u : NodeId} (hu : u < t.nodes.length) (path : List UInt32) :
    (t.dye u path).SplitsAt v := by
  intro n hn hgolden hroot
  rcases MctsTree.getElem?_of_dye hu hn with ⟨rfl, rfl⟩ | ⟨m, hm, rfl⟩
  · refine ⟨rfl, ?_⟩
    intro i seed hseed
    simp [TreeNodeData.fresh] at hseed
  · by_cases huv : u = v
    · rw [if_pos huv] at hgolden
      cases hgolden
    · rw [if_neg huv] at hgolden hroot ⊢
      exact h m hm hgolden hroot

/-- Storing a seed with its split. -/
theorem seed (hshape : Shape t) (h : t.SplitsAt v) {u : NodeId} {x : List UInt32} (hu : t.At u x)
    (hwhite : t.colour? u = some .White) {q : queue_entry} {region_index : Nat} (hsplit : IsSplit q region_index x) :
    (t.seed u q region_index).SplitsAt v := by
  obtain ⟨m, hm, _, hpath⟩ := hu
  rw [MctsTree.colour?_eq hm] at hwhite
  obtain ⟨s, k, hsim, hs, hparent, hgold⟩ := hshape.simulation hm (Option.some.inj hwhite)
  rw [MctsTree.seed_eq hm hsim]
  intro n hn hgolden hroot
  by_cases hsv : s = v
  · subst hsv
    rw [MctsTree.getElem?_modify_self hs] at hn
    cases hn
    obtain ⟨hlen, hall⟩ := h k hs hgold hroot
    obtain ⟨_, _, w, l, hw, hl, _, _, hkpath⟩ := hshape.golden hs hgold
    rw [hparent] at hw
    cases hw
    rw [hm] at hl
    cases hl
    refine ⟨by simp [TreeNodeData.with_seed, hlen], ?_⟩
    intro i seed hseed
    simp only [TreeNodeData.with_seed] at hseed ⊢
    rcases Nat.lt_trichotomy i k.data.seeds.length with hlt | rfl | hgt
    · rw [List.getElem?_append_left hlt] at hseed
      rw [List.getElem?_append_left (by rw [hlen]; exact hlt)]
      exact hall i seed hseed
    · rw [List.getElem?_append_right (Nat.le_refl _), Nat.sub_self] at hseed
      cases hseed
      rw [← hlen, List.getElem?_append_right (Nat.le_refl _), Nat.sub_self, hlen]
      exact ⟨rfl, region_index, rfl, by rw [hkpath, hpath]; exact hsplit⟩
    · rw [List.getElem?_eq_none (by simp; omega)] at hseed
      cases hseed
  · rw [MctsTree.getElem?_modify_ne t hsv] at hn
    exact h n hn hgolden hroot

/-- One iteration of the second round. -/
theorem visit {q : queue_entry} {response_codes : List UInt32} (hshape : Shape t)
    (hstores : StoresSplits t q response_codes) {depth : Nat} {code : UInt32} {s : Walk}
    (hs : s.Sound q response_codes depth) (ht : s.Tracked t q response_codes depth)
    (hcode : response_codes[depth]? = some code) (h999 : code ≠ 999) (h : ∀ v, s.tree.SplitsAt v) (v : NodeId) :
    (visit q response_codes depth code s).tree.SplitsAt v := by
  have hlt := (List.getElem?_eq_some_iff.mp hcode).1
  have hpositive := ht.positive
  have hlast : depth + 1 = response_codes.length → response_codes.take (depth + 1) = response_codes := by
    intro heq
    rw [heq, List.take_length]
  -- the node of a leftover match stays Black, so it gets no seed
  have hstart : (depth + 1 = response_codes.length ∧ ∃ u, t.At u response_codes ∧ t.colour? u = some .Black) →
      ∀ w, s.tree.At w response_codes → s.tree.colour? w = some .Black := by
    rintro ⟨hend, u, hu, hblack⟩ w hw
    obtain ⟨hiff, hcolour⟩ := ht.below (depth + 1) (Nat.lt_succ_self _) hlt w
    rw [hlast hend] at hiff hcolour
    have hw' := hiff.mp hw
    rw [hcolour hw', hshape.at_unique hw' hu, hblack]
  refine (hs.visit_rule hcode h999
    (I := fun t' => (∀ v, t'.SplitsAt v) ∧
      ((depth + 1 = response_codes.length ∧ ∃ u, t.At u response_codes ∧ t.colour? u = some .Black) →
        ∀ w, t'.At w response_codes → t'.colour? w = some .Black))
    ⟨h, hstart⟩ ?_ ?_ ?_ ?_).1 v
  · rintro t₁ t₂ hsame ⟨hsplits, hstale⟩
    refine ⟨fun v => (hsplits v).of_skeleton hsame, fun hend w hw => ?_⟩
    rw [hsame.label.colour?]
    exact hstale hend w (hw.of_label hsame.label.symm)
  · rintro t₁ _ ⟨hsplits, hstale⟩ _ habsent
    refine ⟨fun v => (hsplits v).add _ (by simp [TreeNodeData.fresh]), ?_⟩
    rintro hend w ⟨n, hn, hcolour, hpath⟩
    rcases MctsTree.getElem?_of_add hn with ⟨rfl, rfl⟩ | ⟨m, hm, _, hdata, _, _⟩
    · rw [MctsTree.colour?_eq (MctsTree.getElem?_add_new _ _ _)]
      rfl
    · rw [hdata] at hcolour hpath
      exact absurd ⟨m, hm, hcolour, by rw [hpath, hlast hend.1]⟩ (habsent w)
  · rintro t₁ u _ ⟨hsplits, hstale⟩ hu _ hwhy
    refine ⟨fun v => (hsplits v).dye hu.lt _, ?_⟩
    rintro ⟨hend, u', hu', hblack⟩ w _
    rcases hwhy with habsent | hne
    · have hthere := ((ht.below (depth + 1) (Nat.lt_succ_self _) hlt u').1).mpr (by rw [hlast hend]; exact hu')
      exact absurd hthere (habsent u')
    · exact absurd hend hne
  · rintro t₁ u hshape₁ ⟨hsplits, hstale⟩ hu hwhite hexact hshort
    refine ⟨?_, fun hend w hw => ?_⟩
    · rcases hstores.split_or_stale (by omega) hlt (ht.covers.match_regions hstores.prefixed hpositive) hexact hshort with
        hsplit | ⟨hend, hblack⟩
      · exact fun v => SplitsAt.seed hshape₁ (hsplits v) hu hwhite hsplit
      · rw [hlast hend] at hu
        have hcolour := hstale ⟨hend, hblack⟩ u hu
        rw [hwhite] at hcolour
        cases hcolour
    · rw [(MctsTree.seed_label _ _ _ _).colour?]
      exact hstale hend w (hw.of_label (MctsTree.seed_label _ _ _ _).symm)

/-- A call that meets the condition stores a legal split with each seed, and keeps those stored
before. -/
protected theorem expand {q : queue_entry} {response_codes : List UInt32} (hshape : Shape t)
    (h : ∀ v, t.SplitsAt v) (hregions : 0 < q.region_count) (hstores : StoresSplits t q response_codes) (v : NodeId) :
    (t.expand q response_codes).1.SplitsAt v := by
  have hroot : ∀ v, (t.seed ROOT q 0).SplitsAt v := by
    obtain ⟨r, hr, hnone, hwhite⟩ := hshape.root
    obtain ⟨s, k, hsim, hs, hparent, hgold⟩ := hshape.simulation hr hwhite
    rw [MctsTree.seed_eq hr hsim]
    intro v n hn hgolden hne
    by_cases hsv : s = v
    · subst hsv
      rw [MctsTree.getElem?_modify_self hs] at hn
      cases hn
      exact absurd hparent hne
    · rw [MctsTree.getElem?_modify_ne t hsv] at hn
      exact h v n hn hgolden hne
  have hwalk := (hshape.walk_tracked hregions hstores.plain hstores.prefixed (J := fun _ s => ∀ v, s.tree.SplitsAt v)
    (fun hs ht hcode h999 ih => SplitsAt.visit hshape hstores hs ht hcode h999 ih) hroot).2
  exact (hwalk v).of_skeleton (MctsTree.finish_same (hshape.walk_sound hregions hstores.plain).here.lt _)

end MctsTree.SplitsAt

theorem splits_initial (v : NodeId) : MctsTree.initial.SplitsAt v := by
  intro n hn hgolden hroot
  match v with
  | 0 =>
    cases hn
    cases hgolden
  | 1 =>
    cases hn
    exact absurd rfl hroot
  | v + 2 => cases hn

/-- After every run whose expansions meet the condition, each seed stored below the
root is recorded with a region in use that is annotated with the path of its node,
and splits into M1 and M2 legally in both modes. -/
theorem Run.seeds_split_legally {calls : List Call} {t : MctsTree} (hrun : Run StoresSplits calls t) {s : NodeId}
    {n : GNode} (hs : t.nodes[s]? = some n) (hgolden : n.data.colour = .Golden) (hroot : n.parent ≠ some ROOT)
    {seed : seed_info_t} (hseed : seed ∈ n.data.seeds) :
    (∃ parent_index region_index region, seed.parent_index = some parent_index ∧
      n.data.region_indices[parent_index]? = some region_index ∧ region_index < seed.q.region_count ∧
      seed.q.regions[region_index]? = some region ∧ region.codes = n.data.path) ∧
    ∀ FUZZ_M3, Holds (fun _ => False) (find_M2_region FUZZ_M3 t seed s) fun M2 =>
      1 ≤ M2.2 ∧ M2.1 + M2.2 ≤ seed.q.region_count := by
  obtain ⟨hshape, hsplits⟩ := hrun.shape_rule (fun ok => ok.plain) (J := fun _ t => ∀ v, t.SplitsAt v) splits_initial
    (fun hshape ih hstores hregions => MctsTree.SplitsAt.expand hshape ih hregions hstores)
    (fun ih hsame v => (ih v).of_skeleton hsame)
  obtain ⟨_, hall⟩ := hsplits s n hs hgolden hroot
  obtain ⟨i, hi⟩ := List.mem_iff_getElem?.mp hseed
  obtain ⟨hparent_index, region_index, hindex, hsplit⟩ := hall i seed hi
  refine ⟨?_, fun FUZZ_M3 => find_M2_region_holds hshape hs hgolden hroot hparent_index hindex hsplit FUZZ_M3⟩
  obtain ⟨hlt, region, hregion, hcodes⟩ := hsplit
  rw [queue_entry.live_regions, List.getElem?_take, if_pos (by omega)] at hregion
  exact ⟨i, region_index, region, hparent_index, hindex, by omega, hregion, hcodes⟩

/-- Two requests, answered by the codes 5 and 6. -/
def paired_entry : queue_entry := .of_regions "id:000003" [.annotated 0 9 [0, 5], .annotated 10 19 [0, 5, 6]]

theorem M2_of_paired_entry :
    Holds (fun _ => False) (find_M2_region true (MctsTree.initial.expand paired_entry [0, 5, 6]).1
      { construct_seed_with_queue_entry paired_entry with parent_index := some 0 } 3) fun M2 =>
        1 ≤ M2.2 ∧ M2.1 + M2.2 ≤ 2 := by
  have hstores : StoresSplits .initial paired_entry [0, 5, 6] := by
    refine ⟨⟨⟨by decide, rfl, by decide⟩, by decide, rfl⟩, by decide, ?_⟩
    intro region hregion
    cases hregion
  have hrun := Run.initial.expand hstores (by decide) (by decide)
  exact (Run.seeds_split_legally hrun (s := 3) rfl rfl (by decide) (List.mem_singleton.mpr rfl)).2 true

/-- Four requests, of which only the last one got a new code. -/
def repeated_entry : queue_entry :=
  .of_regions "id:000004"
    [.annotated 0 9 [0, 5], .annotated 10 19 [0, 5], .annotated 20 29 [0, 5], .annotated 30 39 [0, 5, 6]]

/-- With more regions than codes a match is left over, and the SimNode of the whole
response stores a seed whose region ends one code earlier. -/
theorem seed_with_leftover_region : ∃ calls t,
    Run (fun t q codes => WellAnnotated t q codes ∧ q.live_regions.Pairwise fun a b => a.state_count ≤ b.state_count)
      calls t ∧
    t.colour? 5 = some .Golden ∧ t.nodes[5]?.map (fun n => n.data.path) = some [0, 5, 6] ∧
    t.nodes[5]?.map (fun n => n.data.region_indices) = some [0] ∧
    repeated_entry.regions[0]?.map region_t.codes = some [0, 5] ∧
    find_M2_region false t { construct_seed_with_queue_entry repeated_entry with parent_index := some 0 } 5 false [] =
      .error (.abort .M1_reaches_node) := by
  have hcall : WellAnnotated .initial repeated_entry [0, 5, 6] := ⟨⟨by decide, rfl, by decide⟩, by decide, rfl⟩
  have hrun := (Run.initial : Run (fun t q codes =>
    WellAnnotated t q codes ∧ q.live_regions.Pairwise fun a b => a.state_count ≤ b.state_count) [] .initial).expand
      ⟨hcall, by decide⟩ (by decide) (by decide)
  exact ⟨_, _, hrun, rfl, rfl, rfl, rfl, rfl⟩

end aflnet.mcts
