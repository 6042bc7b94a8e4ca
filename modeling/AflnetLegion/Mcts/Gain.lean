import AflnetLegion.Mcts.ExactMatch
import AflnetLegion.Mcts.Track

open Checked

namespace aflnet.mcts

/-- What says where a tree keeps which seeds. -/
def GNode.store (n : GNode) : Label × List seed_info_t × List Nat := (n.label, n.data.seeds, n.data.region_indices)

/-- The SimNode of the White node with path `x` holds these seeds and region indices. -/
def MctsTree.Stores (t : MctsTree) (x : List UInt32) (seeds : List seed_info_t) (region_indices : List Nat) : Prop :=
  ∃ (v : NodeId) (n : GNode) (s : NodeId) (m : GNode), t.nodes[v]? = some n ∧ n.data.colour = .White ∧
    n.data.path = x ∧ n.data.simulation_child = some s ∧ t.nodes[s]? = some m ∧ m.data.seeds = seeds ∧
    m.data.region_indices = region_indices

namespace MctsTree.Stores

variable {t t' : MctsTree} {v : NodeId} {x y : List UInt32} {seeds seeds' : List seed_info_t}
  {region_indices region_indices' : List Nat}

/-- What is stored depends on paths, colours, simulation children and seeds only. -/
theorem of_same (h : t.Stores x seeds region_indices) (hsame : SameBy GNode.store t t') :
    t'.Stores x seeds region_indices := by
  obtain ⟨v, n, s, m, hn, hwhite, hpath, hsim, hm, hseeds, hindices⟩ := h
  obtain ⟨n', hn', heq⟩ := hsame.exists_node hn
  obtain ⟨m', hm', heq'⟩ := hsame.exists_node hm
  have hlabel : n'.label = n.label := congrArg Prod.fst heq
  have hlinks := GNode.links_of_label hlabel
  refine ⟨v, n', s, m', hn', (GNode.colour_of_label hlabel).trans hwhite, (GNode.path_of_label hlabel).trans hpath,
    (congrArg Links.simulation_child hlinks).trans hsim, hm', ?_, ?_⟩
  · exact (congrArg (fun store => store.2.1) heq').trans hseeds
  · exact (congrArg (fun store => store.2.2) heq').trans hindices

theorem white (h : t.Stores x seeds region_indices) : ∃ v, t.At v x ∧ t.colour? v = some .White := by
  obtain ⟨v, n, _, _, hn, hwhite, hpath, _⟩ := h
  exact ⟨v, ⟨n, hn, by simp [hwhite], hpath⟩, (colour?_eq hn).trans (congrArg some hwhite)⟩

/-- A White node has a SimNode, which stores some list of seeds. -/
theorem of_white (h : Shape t) (hv : t.At v x) (hwhite : t.colour? v = some .White) :
    ∃ seeds region_indices, t.Stores x seeds region_indices := by
  obtain ⟨n, hn, _, hpath⟩ := hv
  rw [colour?_eq hn] at hwhite
  obtain ⟨s, m, hsim, hs, _⟩ := h.simulation hn (Option.some.inj hwhite)
  exact ⟨_, _, v, n, s, m, hn, Option.some.inj hwhite, hpath, hsim, hs, rfl, rfl⟩

/-- The SimNode of a path has one list of seeds and one of indices. -/
theorem unique (hshape : Shape t) (h : t.Stores x seeds region_indices) (h' : t.Stores x seeds' region_indices') :
    seeds' = seeds ∧ region_indices' = region_indices := by
  obtain ⟨v, n, s, m, hn, hwhite, hpath, hsim, hm, rfl, rfl⟩ := h
  obtain ⟨v', n', s', m', hn', hwhite', hpath', hsim', hm', rfl, rfl⟩ := h'
  obtain rfl := hshape.at_unique ⟨n, hn, by simp [hwhite], hpath⟩ ⟨n', hn', by simp [hwhite'], hpath'⟩
  rw [hn] at hn'
  cases hn'
  rw [hsim] at hsim'
  cases hsim'
  rw [hm] at hm'
  cases hm'
  exact ⟨rfl, rfl⟩

theorem add (h : t.Stores x seeds region_indices) (u : NodeId) (d : TreeNodeData) :
    (t.add u d).Stores x seeds region_indices := by
  obtain ⟨v, n, s, m, hn, hwhite, hpath, hsim, hm, hseeds, hindices⟩ := h
  have hold : ∀ {w : NodeId} {k : GNode}, t.nodes[w]? = some k → ∃ k', (t.add u d).nodes[w]? = some k' ∧ k'.data = k.data := by
    intro w k hk
    by_cases huw : u = w
    · subst huw
      exact ⟨_, getElem?_add_parent d hk, rfl⟩
    · exact ⟨k, getElem?_add_ne d hk huw, rfl⟩
  obtain ⟨n', hn', hdata⟩ := hold hn
  obtain ⟨m', hm', hdata'⟩ := hold hm
  exact ⟨v, n', s, m', hn', by rw [hdata, hwhite], by rw [hdata, hpath], by rw [hdata, hsim], hm',
    by rw [hdata', hseeds], by rw [hdata', hindices]⟩

/-- Turning another node White. -/
theorem dye (h : t.Stores x seeds region_indices) {u : NodeId} (hblack : t.colour? u = some .Black)
    (path : List UInt32) : (t.dye u path).Stores x seeds region_indices := by
  obtain ⟨v, n, s, m, hn, hwhite, hpath, hsim, hm, hseeds, hindices⟩ := h
  obtain ⟨k, hk, hcolour⟩ := Option.map_eq_some_iff.mp hblack
  have hne : u ≠ v := ne_of_colour_ne hk hn (by simp [hcolour, hwhite])
  refine ⟨v, n, s, ?_⟩
  by_cases hus : u = s
  · subst hus
    exact ⟨_, getElem?_dye_ne hn hne path, hwhite, hpath, hsim, getElem?_dye_self hm path, hseeds, hindices⟩
  · exact ⟨m, getElem?_dye_ne hn hne path, hwhite, hpath, hsim, getElem?_dye_ne hm hus path, hseeds, hindices⟩

/-- A node that has just been turned White holds no seed. -/
theorem dye_self (hv : t.At v x) (path : List UInt32) : (t.dye v path).Stores x [] [] := by
  obtain ⟨n, hn, _, hpath⟩ := hv
  exact ⟨v, _, _, _, getElem?_dye_self hn path, rfl, hpath, rfl, getElem?_dye_new (lt_of_getElem? hn) path, rfl, rfl⟩

/-- Storing a seed in another SimNode. -/
theorem seed (hshape : Shape t) (h : t.Stores y seeds region_indices) (hv : t.At v x) (hwhite : t.colour? v = some .White)
    (hne : y ≠ x) (q : queue_entry) (region_index : Nat) : (t.seed v q region_index).Stores y seeds region_indices := by
  obtain ⟨w, n, s, m, hn, hwhite', hpath, hsim, hm, hseeds, hindices⟩ := h
  obtain ⟨k, hk, _, hpath'⟩ := hv
  rw [colour?_eq hk] at hwhite
  obtain ⟨s', m', hsim', hm', hparent', _⟩ := hshape.simulation hk (Option.some.inj hwhite)
  obtain ⟨_, m'', hs'', hm'', hparent, _⟩ := hshape.simulation hn hwhite'
  rw [hsim] at hs''
  cases hs''
  rw [hm] at hm''
  cases hm''
  have hdifferent : s' ≠ s := by
    rintro rfl
    rw [hm] at hm'
    cases hm'
    rw [hparent] at hparent'
    cases hparent'
    rw [hn] at hk
    cases hk
    exact hne (hpath.symm.trans hpath')
  rw [seed_eq hk hsim']
  have hw : ∃ n', (t.modify s' fun d => d.with_seed (construct_seed_with_queue_entry q) region_index).nodes[w]? = some n' ∧
      n'.data.colour = n.data.colour ∧ n'.data.path = n.data.path ∧
      n'.data.simulation_child = n.data.simulation_child := by
    by_cases hsw : s' = w
    · subst hsw
      exact ⟨_, getElem?_modify_self hn _, rfl, rfl, rfl⟩
    · exact ⟨n, (getElem?_modify_ne t hsw _).trans hn, rfl, rfl, rfl⟩
  obtain ⟨n', hn', hc, hp, hs⟩ := hw
  exact ⟨w, n', s, m, hn', hc.trans hwhite', hp.trans hpath, hs.trans hsim,
    (getElem?_modify_ne t hdifferent _).trans hm, hseeds, hindices⟩

/-- Storing a seed in the SimNode itself. -/
theorem seed_self (hshape : Shape t) (h : t.Stores x seeds region_indices) (hv : t.At v x) (q : queue_entry)
    (region_index : Nat) :
    (t.seed v q region_index).Stores x
      (seeds ++ [{ construct_seed_with_queue_entry q with parent_index := some seeds.length }])
      (region_indices ++ [region_index]) := by
  obtain ⟨w, n, s, m, hn, hwhite, hpath, hsim, hm, rfl, rfl⟩ := h
  obtain rfl := hshape.at_unique hv ⟨n, hn, by simp [hwhite], hpath⟩
  obtain ⟨_, m', hs', hm', _, hgolden⟩ := hshape.simulation hn hwhite
  rw [hsim] at hs'
  cases hs'
  rw [hm] at hm'
  cases hm'
  have hne : s ≠ v := ne_of_colour_ne hm hn (by simp [hgolden, hwhite])
  rw [seed_eq hn hsim]
  exact ⟨v, n, s, _, (getElem?_modify_ne t hne _).trans hn, hwhite, hpath, hsim, getElem?_modify_self hm _, rfl, rfl⟩

end MctsTree.Stores

/-- The seeds stored for the path `x`, if there is a SimNode for them. -/
def MctsTree.Held (t : MctsTree) (x : List UInt32) (seeds : List seed_info_t) (region_indices : List Nat) : Prop :=
  t.Stores x seeds region_indices ∨ (¬ ∃ old indices, t.Stores x old indices) ∧ seeds = [] ∧ region_indices = []

/-- In `t'` the node with path `x` is White, and its SimNode holds one seed more than in `t`:
one for `q`, recorded with the region index. -/
def Gains (t t' : MctsTree) (q : queue_entry) (x : List UInt32) (region_index : Nat) : Prop :=
  ∃ seeds region_indices, t.Held x seeds region_indices ∧
    t'.Stores x (seeds ++ [{ construct_seed_with_queue_entry q with parent_index := some seeds.length }])
      (region_indices ++ [region_index])

section gains

variable {t t' : MctsTree} {q : queue_entry} {x : List UInt32} {i k : Nat}

/-- The same, with empty lists where there is no SimNode. -/
theorem MctsTree.Held.unique (hshape : Shape t) {seeds seeds' : List seed_info_t} {region_indices region_indices' : List Nat}
    (h : t.Held x seeds region_indices) (h' : t.Held x seeds' region_indices') :
    seeds' = seeds ∧ region_indices' = region_indices := by
  rcases h with h | ⟨hnone, rfl, rfl⟩ <;> rcases h' with h' | ⟨hnone', rfl, rfl⟩
  · exact h.unique hshape h'
  · exact absurd ⟨_, _, h⟩ hnone'
  · exact absurd ⟨_, _, h'⟩ hnone
  · exact ⟨rfl, rfl⟩

/-- A node gains at most one seed in an `Expansion`, so the index it is stored with is
determined. -/
theorem Gains.unique (hshape : Shape t) (hshape' : Shape t') (h : Gains t t' q x i) (h' : Gains t t' q x k) : k = i := by
  obtain ⟨_, _, hheld, hstores⟩ := h
  obtain ⟨_, _, hheld', hstores'⟩ := h'
  obtain ⟨rfl, rfl⟩ := hheld.unique hshape hheld'
  exact (List.append_singleton_inj.mp (hstores.unique hshape' hstores').2).2

/-- A SimNode that is as before has gained nothing. -/
theorem not_gains (hshape : Shape t)
    (hsame : ∀ seeds region_indices, t'.Stores x seeds region_indices → t.Stores x seeds region_indices) :
    ¬ Gains t t' q x i := by
  rintro ⟨seeds, region_indices, hheld, hstores⟩
  have hold := hsame _ _ hstores
  have hlen := congrArg List.length (hheld.unique hshape (Or.inl hold)).1
  simp at hlen

theorem Gains.congr {t'' : MctsTree}
    (hsame : ∀ seeds region_indices, t''.Stores x seeds region_indices ↔ t'.Stores x seeds region_indices) :
    Gains t t'' q x i ↔ Gains t t' q x i := by
  simp only [Gains, hsame]

end gains

theorem MctsTree.unmark_store (t : MctsTree) (v : NodeId) (path_index len_codes : Nat) :
    SameBy GNode.store t (t.unmark v path_index len_codes) := by
  rw [MctsTree.unmark]
  split
  · intro u
    rw [getElem?_modify]
    cases t.nodes[u]? with
    | none => rfl
    | some n => by_cases hvu : v = u <;> simp [hvu, GNode.store, GNode.label, GNode.links]
  · exact SameBy.refl t

/-- Appending the node of the next code stores nothing for the paths that are there. -/
theorem stores_grown {s : Walk} {x : List UInt32} {seeds : List seed_info_t} {region_indices : List Nat}
    (h : s.tree.Stores x seeds region_indices) (response_codes : List UInt32) (path_index : Nat) (code : UInt32) :
    (s.grown response_codes path_index code).Stores x seeds region_indices := by
  have hunmarked := h.of_same (s.tree.unmark_store s.tree_node path_index response_codes.length)
  rw [Walk.grown]
  split
  · exact hunmarked.add _ _
  · exact hunmarked

namespace Walk.Sound

variable {t : MctsTree} {q : queue_entry} {response_codes : List UInt32} {depth : Nat} {code : UInt32} {s : Walk}

/-- An iteration leaves the seeds of all other nodes alone. -/
theorem stores_visit_iff (hs : s.Sound q response_codes depth) (hcode : response_codes[depth]? = some code)
    (h999 : code ≠ 999) {y : List UInt32} (hne : y ≠ response_codes.take (depth + 1)) (seeds : List seed_info_t)
    (region_indices : List Nat) :
    (visit q response_codes depth code s).tree.Stores y seeds region_indices ↔ s.tree.Stores y seeds region_indices := by
  have hforth : ∀ {seeds region_indices}, s.tree.Stores y seeds region_indices →
      (visit q response_codes depth code s).tree.Stores y seeds region_indices := by
    intro seeds region_indices h
    exact hs.edits_rule hcode h999 (I := fun t' => t'.Stores y seeds region_indices)
      (h.of_same (s.tree.unmark_store s.tree_node depth response_codes.length)) (fun _ ih _ _ => ih.add _ _)
      (fun _ ih _ hblack _ => ih.dye hblack _) (fun hshape ih hv hwhite _ _ => ih.seed hshape hv hwhite hne _ _)
  refine ⟨fun h => ?_, hforth⟩
  obtain ⟨v, hv, hwhite⟩ := h.white
  have hv' := (hs.of_at_visit hcode h999 hv).resolve_right hne
  rw [Walk.Tracked.colour_visit hs hcode h999 hv' hne] at hwhite
  obtain ⟨old, indices, hstores⟩ := MctsTree.Stores.of_white hs.shape hv' hwhite
  obtain ⟨rfl, rfl⟩ := (hforth hstores).unique (hs.visit hcode h999).shape h
  exact hstores

/-- The colour of the node of the next prefix before it may be turned White. -/
theorem colour_grown (hs : s.Sound q response_codes depth) (ht : s.Tracked t q response_codes depth)
    (hcode : response_codes[depth]? = some code) (h999 : code ≠ 999)
    (hwhite : ¬ ∃ v, t.At v (response_codes.take (depth + 1)) ∧ t.colour? v = some .White) :
    (s.grown response_codes depth code).colour? (s.next depth response_codes.length code) = some .Black := by
  obtain ⟨_, hshape, hat⟩ := hs.grow hcode h999
  rw [Walk.grown, Walk.next] at hat ⊢
  rw [Walk.grown] at hshape
  split at hat
  · rename_i hyes
    rw [if_pos hyes, if_pos hyes, MctsTree.colour?_eq (MctsTree.getElem?_add_new _ _ _)]
    rfl
  · rename_i hno
    rw [if_neg hno, if_neg hno]
    obtain ⟨n, hn, hcolour, hpath⟩ := hat
    rw [MctsTree.colour?_eq hn]
    rw [if_neg hno] at hshape
    rcases hshape.colours hn with hw | hg | hb
    · have hlabel := (s.tree.unmark_same s.tree_node depth response_codes.length).label
      obtain ⟨hiff, hsame⟩ := ht.below (depth + 1) (Nat.lt_succ_self _) (List.getElem?_eq_some_iff.mp hcode).1
        (((s.unmarked depth response_codes.length).child_with_id s.tree_node code).getD s.tree_node)
      have hold := hiff.mp (MctsTree.At.of_label ⟨n, hn, hcolour, hpath⟩ hlabel.symm)
      refine absurd ⟨_, hold, ?_⟩ hwhite
      rw [← hsame hold, ← hlabel.colour?]
      exact (MctsTree.colour?_eq hn).trans (congrArg some hw)
    · exact absurd hg hcolour
    · rw [hb]

/-- Before its seed is stored, the node of an exact match has the seeds it had before the walk. -/
theorem held_dyed (hs : s.Sound q response_codes depth) (ht : s.Tracked t q response_codes depth) (hshape : Shape t)
    (hcode : response_codes[depth]? = some code) (h999 : code ≠ 999) (hinner : depth + 1 < response_codes.length)
    (hbelow : ∀ seeds region_indices, t.Stores (response_codes.take (depth + 1)) seeds region_indices →
      s.tree.Stores (response_codes.take (depth + 1)) seeds region_indices)
    (hexact : (match_regions q response_codes depth s.regions).matched_exactly = true) :
    ∃ seeds region_indices, t.Held (response_codes.take (depth + 1)) seeds region_indices ∧
      (s.dyed q response_codes depth code).Stores (response_codes.take (depth + 1)) seeds region_indices := by
  by_cases hstored : ∃ seeds region_indices, t.Stores (response_codes.take (depth + 1)) seeds region_indices
  · obtain ⟨seeds, region_indices, hstores⟩ := hstored
    refine ⟨seeds, region_indices, Or.inl hstores, ?_⟩
    have hgrown := stores_grown (hbelow _ _ hstores) response_codes depth code
    rw [Walk.dyed]
    split
    · rename_i hyes
      exact hgrown.dye hyes.2.1 _
    · exact hgrown
  · refine ⟨[], [], Or.inr ⟨hstored, rfl, rfl⟩, ?_⟩
    have hblack := hs.colour_grown ht hcode h999 (by
      rintro ⟨v, hv, hwhite⟩
      exact hstored (MctsTree.Stores.of_white hshape hv hwhite))
    rw [Walk.dyed, if_pos ⟨hexact, hblack, Or.inr (Nat.ne_of_lt hinner)⟩]
    exact MctsTree.Stores.dye_self (hs.grow hcode h999).2.2 _

/-- An exact match at an interior position stores a seed with the region that was found. -/
theorem gains_visit (hs : s.Sound q response_codes depth) (ht : s.Tracked t q response_codes depth) (hshape : Shape t)
    (hcode : response_codes[depth]? = some code) (h999 : code ≠ 999) (hinner : depth + 1 < response_codes.length)
    (hbelow : ∀ seeds region_indices, t.Stores (response_codes.take (depth + 1)) seeds region_indices →
      s.tree.Stores (response_codes.take (depth + 1)) seeds region_indices)
    (hexact : (match_regions q response_codes depth s.regions).matched_exactly = true)
    (hshort : q.regions[(match_regions q response_codes depth s.regions).matching_region_index]?.any
      fun r => r.state_count < response_codes.length) :
    Gains t (visit q response_codes depth code s).tree q (response_codes.take (depth + 1))
      (match_regions q response_codes depth s.regions).matching_region_index := by
  obtain ⟨seeds, region_indices, hheld, hstores⟩ := hs.held_dyed ht hshape hcode h999 hinner hbelow hexact
  obtain ⟨hdyed, hat⟩ := hs.dyed_at hcode h999
  obtain ⟨v, hv, hwhite⟩ := hstores.white
  obtain rfl := hdyed.at_unique hat hv
  refine ⟨seeds, region_indices, hheld, ?_⟩
  rw [visit_eq]
  dsimp only
  rw [if_pos hexact, MctsTree.seed_matched, if_pos ⟨hwhite, hshort⟩]
  exact hstores.seed_self hdyed hat q _

/-- Without an exact match no SimNode changes. -/
theorem stores_visit_of_no_match (hs : s.Sound q response_codes depth) (ht : s.Tracked t q response_codes depth)
    (hshape : Shape t) (hcode : response_codes[depth]? = some code) (h999 : code ≠ 999)
    (hbelow : ∀ seeds region_indices, t.Stores (response_codes.take (depth + 1)) seeds region_indices →
      s.tree.Stores (response_codes.take (depth + 1)) seeds region_indices)
    (hno : (match_regions q response_codes depth s.regions).matched_exactly = false) {seeds : List seed_info_t}
    {region_indices : List Nat}
    (h : (visit q response_codes depth code s).tree.Stores (response_codes.take (depth + 1)) seeds region_indices) :
    t.Stores (response_codes.take (depth + 1)) seeds region_indices := by
  obtain ⟨_, hgrown, hat⟩ := hs.grow hcode h999
  have htree : (visit q response_codes depth code s).tree = s.grown response_codes depth code := by
    rw [visit_eq, Walk.dyed, hno]
    rfl
  rw [htree] at h
  by_contra hnot
  have hblack := hs.colour_grown ht hcode h999 (by
    rintro ⟨v, hv, hwhite⟩
    obtain ⟨old, indices, hstores⟩ := MctsTree.Stores.of_white hshape hv hwhite
    obtain ⟨rfl, rfl⟩ := (stores_grown (hbelow _ _ hstores) response_codes depth code).unique hgrown h
    exact hnot hstores)
  obtain ⟨v, hv, hwhite⟩ := h.white
  rw [hgrown.at_unique hv hat, hblack] at hwhite
  cases hwhite

end Walk.Sound

/-- The index of the first region annotated with `count` codes. -/
def first_region (q : queue_entry) (count : Nat) : Option Nat :=
  q.live_regions.findIdx? fun region => region.state_count = count

/-- Where annotations never get shorter, the first region with `count` codes is the first with
at least `count` codes. -/
theorem isFirstLong_of_first_region {q : queue_entry} {count i : Nat}
    (hsorted : q.live_regions.Pairwise fun a b => a.state_count ≤ b.state_count) (hfirst : first_region q count = some i) :
    ∃ region, IsFirstLong q.live_regions count i region ∧ region.state_count = count := by
  obtain ⟨hlt, hcount, hbefore⟩ := List.findIdx?_eq_some_iff_getElem.mp hfirst
  rw [decide_eq_true_eq] at hcount
  refine ⟨q.live_regions[i], ⟨List.getElem?_eq_getElem hlt, Nat.le_of_eq hcount.symm, ?_⟩, hcount⟩
  intro k short hk hget
  obtain ⟨hklt, rfl⟩ := List.getElem?_eq_some_iff.mp hget
  have hle := List.pairwise_iff_getElem.mp hsorted k i hklt hlt hk
  have hne := hbefore k hk
  rw [decide_eq_true_eq] at hne
  omega

/-- What the walk of a response through `t` has done with the seeds once it is at `depth`: the
nodes it has passed have got theirs, and those ahead have what they had in `t`. -/
structure Walk.Gaining (t : MctsTree) (q : queue_entry) (response_codes : List UInt32) (depth : Nat) (s : Walk) :
    Prop where
  passed : s.regions.Passed q response_codes depth
  in_range : s.regions.matching_region_index < response_codes.length
  below : ∀ k, depth < k → k ≤ response_codes.length → ∀ seeds region_indices,
    t.Stores (response_codes.take k) seeds region_indices → s.tree.Stores (response_codes.take k) seeds region_indices
  gains_iff : ∀ path_index i, 1 ≤ path_index → path_index < depth → path_index + 1 < response_codes.length →
    first_region q (path_index + 1) = some i →
    (Gains t s.tree q (response_codes.take (path_index + 1)) i ↔ i < response_codes.length)

namespace Walk.Gaining

variable {t : MctsTree} {q : queue_entry} {response_codes : List UInt32} {depth : Nat} {code : UInt32} {s : Walk}

/-- The position the iteration is at: the region that is looked for is found unless its
index is cut off, and then a match left over from before has another index. -/
theorem gains_here (h : s.Gaining t q response_codes depth) (hs : s.Sound q response_codes depth)
    (ht : s.Tracked t q response_codes depth) (hshape : Shape t) (hprefixed : Prefixed q response_codes)
    (hsorted : q.live_regions.Pairwise fun a b => a.state_count ≤ b.state_count)
    (hcode : response_codes[depth]? = some code) (h999 : code ≠ 999) (hinner : depth + 1 < response_codes.length) {i : Nat}
    (hfirst : first_region q (depth + 1) = some i) :
    Gains t (visit q response_codes depth code s).tree q (response_codes.take (depth + 1)) i ↔
      i < response_codes.length := by
  obtain ⟨region, hlong, hcount⟩ := isFirstLong_of_first_region hsorted hfirst
  have hbelow := h.below (depth + 1) (Nat.lt_succ_self _) (Nat.le_of_lt hinner)
  rcases h.passed.match_regions_spec with ⟨k, found, hfound, _, heq⟩ | ⟨hall, heq⟩
  · obtain ⟨rfl, rfl⟩ := hlong.unique hfound.of_scanned
    obtain ⟨hget, hlt⟩ := get_of_scanned hfound.get
    have hsame := memcmp_eq_of_prefix (hprefixed _ (List.mem_of_getElem? hget)).2
    rw [decide_eq_true ⟨hcount, hsame⟩] at heq
    have hregion := get_of_live hget
    have hgains := hs.gains_visit ht hshape hcode h999 hinner hbelow (by rw [heq])
      (by rw [heq, hregion, Option.any_some, decide_eq_true_eq, hcount]; exact hinner)
    rw [heq] at hgains
    exact iff_of_true hgains hlt
  · have hcut : ¬ i < response_codes.length := by
      intro hlt
      have hshort := hall region (List.mem_of_getElem? (get_scanned hlong.get hlt))
      omega
    refine iff_of_false ?_ hcut
    cases hexact : s.regions.matched_exactly with
    | false => exact not_gains hshape fun _ _ => hs.stores_visit_of_no_match ht hshape hcode h999 hbelow (by rw [heq, hexact])
    | true =>
      obtain ⟨old, hlive⟩ : ∃ old, q.live_regions[s.regions.matching_region_index]? = some old :=
        ⟨_, List.getElem?_eq_getElem (by simpa using hs.ready.in_range)⟩
      have hold : old.state_count ≤ depth := h.passed _ old (by rw [hexact]; exact Nat.lt_succ_self _)
        (get_scanned hlive h.in_range)
      have hgains := hs.gains_visit ht hshape hcode h999 hinner hbelow (by rw [heq, hexact])
        (by rw [heq, get_of_live hlive, Option.any_some, decide_eq_true_eq]; omega)
      rw [heq] at hgains
      intro hgains'
      have hin := h.in_range
      rw [hgains'.unique hshape (hs.visit hcode h999).shape hgains] at hin
      exact hcut hin

/-- One iteration: it stores a seed at its position exactly if the match there is exact, and
with the region that has been matched. -/
protected theorem visit (h : s.Gaining t q response_codes depth) (hs : s.Sound q response_codes depth)
    (ht : s.Tracked t q response_codes depth) (hshape : Shape t) (hprefixed : Prefixed q response_codes)
    (hsorted : q.live_regions.Pairwise fun a b => a.state_count ≤ b.state_count)
    (hcode : response_codes[depth]? = some code) (h999 : code ≠ 999) :
    (visit q response_codes depth code s).Gaining t q response_codes (depth + 1) := by
  have hregions : (visit q response_codes depth code s).regions = match_regions q response_codes depth s.regions := by
    rw [visit_eq]
  have hlt := (List.getElem?_eq_some_iff.mp hcode).1
  refine ⟨?_, ?_, ?_, ?_⟩
  · rw [hregions]
    exact h.passed.match_regions
  · rw [hregions]
    rcases h.passed.match_regions_spec with ⟨k, found, hfound, _, heq⟩ | ⟨_, heq⟩
    · rw [heq]
      exact (get_of_scanned hfound.get).2
    · rw [heq]
      exact h.in_range
  · intro k hk hle seeds region_indices hstores
    rw [hs.stores_visit_iff hcode h999 (Walk.Tracked.take_ne_take hk hle).symm]
    exact h.below k (Nat.lt_of_succ_lt hk) hle _ _ hstores
  · intro path_index i hpath hle hinner hfirst
    rcases Nat.lt_succ_iff_lt_or_eq.mp hle with hbefore | rfl
    · have hne : response_codes.take (path_index + 1) ≠ response_codes.take (depth + 1) :=
        Walk.Tracked.take_ne_take (by omega) hlt
      rw [Gains.congr (hs.stores_visit_iff hcode h999 hne)]
      exact h.gains_iff path_index i hpath hbefore hinner hfirst
    · exact h.gains_here hs ht hshape hprefixed hsorted hcode h999 hinner hfirst

/-- Before the second round nothing was gained but the seed of the root. -/
theorem start (hshape : Shape t) (hcodes : Plain response_codes) :
    (Walk.start (t.seed ROOT q 0) ROOT).Gaining t q response_codes 1 where
  passed := RegionMatch.Passed.start
  in_range := Nat.lt_of_lt_of_le Nat.zero_lt_two hcodes.long
  below := by
    intro k hk hle seeds region_indices hstores
    obtain ⟨r, hr, _, hwhite⟩ := hshape.root
    have hne : response_codes.take 1 ≠ response_codes.take k := Walk.Tracked.take_ne_take hk hle
    rw [hcodes.take_one] at hne
    exact hstores.seed hshape hshape.at_root ((MctsTree.colour?_eq hr).trans (congrArg some hwhite)) hne.symm q 0
  gains_iff := fun path_index i hpath hlt => by omega

end Walk.Gaining

theorem MctsTree.finish_store (t : MctsTree) (v : NodeId) (new_path : Bool) :
    SameBy GNode.store t (t.finish v new_path) := by
  rw [MctsTree.finish]
  refine SameBy.trans ?_ (MctsTree.discover_keeps (fun _ _ => rfl) _ _ _ _)
  intro u
  rw [getElem?_modify]
  cases t.nodes[u]? with
  | none => rfl
  | some n => by_cases hvu : v = u <;> simp [hvu, GNode.store, GNode.label, GNode.links]

/-- Every exact match at an interior position gives its node a SimNode with one more seed for
the entry, unless the first region with that many codes comes after as many regions as the
response has codes. -/
theorem Run.exact_matches_stored_iff {calls : List Call} {t t' : MctsTree}
    (hrun : Run (fun _ _ codes => Plain codes) calls t) {q : queue_entry} {response_codes : List UInt32}
    (hwell : WellAnnotated t q response_codes)
    (hsorted : q.live_regions.Pairwise fun a b => a.state_count ≤ b.state_count) {v : NodeId} {new_path : Bool}
    (hret : Returns (Expansion t ROOT q response_codes) (t', v, new_path)) :
    (∀ path_index i, 1 ≤ path_index → path_index + 1 < response_codes.length →
      first_region q (path_index + 1) = some i → Gains t t' q (response_codes.take (path_index + 1)) i) ↔
    ∀ path_index i, 1 ≤ path_index → path_index + 1 < response_codes.length →
      first_region q (path_index + 1) = some i → i < response_codes.length := by
  obtain ⟨hregions, hlen, heq⟩ := hrun.linked.returns_expansion hret
  obtain rfl : t' = (t.expand q response_codes).1 := congrArg Prod.fst heq
  have hshape := hrun.records.1
  have hwalk := (hshape.walk_tracked hregions hwell.plain hwell.prefixed
    (J := fun depth s => s.Gaining t q response_codes depth)
    (fun hs ht hcode h999 ih => ih.visit hs ht hshape hwell.prefixed hsorted hcode h999)
    (Walk.Gaining.start hshape hwell.plain)).2
  have hsame := (t.walk q response_codes).tree.finish_store (t.walk q response_codes).tree_node
    (t.missing ROOT response_codes.tail)
  have hfinal : ∀ x i, Gains t (t.expand q response_codes).1 q x i ↔ Gains t (t.walk q response_codes).tree q x i :=
    fun x i => Gains.congr fun _ _ => ⟨fun h => h.of_same hsame.symm, fun h => h.of_same hsame⟩
  constructor
  · intro hgains path_index i hpath hinner hfirst
    rw [← hwalk.gains_iff path_index i hpath (by omega) hinner hfirst, ← hfinal]
    exact hgains path_index i hpath hinner hfirst
  · intro hcut path_index i hpath hinner hfirst
    rw [hfinal, hwalk.gains_iff path_index i hpath (by omega) hinner hfirst]
    exact hcut path_index i hpath hinner hfirst

/-- Some requests without a response, and then one for each of the codes 5 and 6. -/
def late_entry (silent : Nat) : queue_entry :=
  .of_regions "id:000008"
    (List.replicate silent (.annotated 0 9 [0]) ++ [.annotated 10 19 [0, 5], .annotated 20 29 [0, 5, 6]])

/-- With two silent requests the third one is an exact match, whose seed is stored with its
index 2. -/
theorem gain_after_two_silent_requests :
    Gains .initial (MctsTree.initial.expand (late_entry 2) [0, 5, 6]).1 (late_entry 2) [0, 5] 2 := by
  have hret := linked_initial.expansion_returns (q := late_entry 2) (by decide)
    (show 2 ≤ ([0, 5, 6] : List UInt32).length by decide)
  have hcut : ∀ path_index i, 1 ≤ path_index → path_index + 1 < 3 → first_region (late_entry 2) (path_index + 1) = some i →
      i < 3 := by
    intro path_index i hpath hinner hfirst
    obtain rfl : path_index = 1 := by omega
    cases hfirst
    decide
  exact (Run.exact_matches_stored_iff Run.initial ⟨⟨by decide, rfl, by decide⟩, by decide, rfl⟩ (by decide) hret).mpr hcut
    1 2 (Nat.le_refl 1) (by decide) rfl

/-- With a third silent request the index of the exact match reaches the number of codes. -/
theorem no_gain_after_three_silent_requests : ∃ calls t t' v new_path, Run (fun _ _ codes => Plain codes) calls t ∧
    WellAnnotated t (late_entry 3) [0, 5, 6] ∧
    ((late_entry 3).live_regions.Pairwise fun a b => a.state_count ≤ b.state_count) ∧
    Returns (Expansion t ROOT (late_entry 3) [0, 5, 6]) (t', v, new_path) ∧
    first_region (late_entry 3) 2 = some 3 ∧ ¬ Gains t t' (late_entry 3) [0, 5] 3 := by
  refine ⟨_, _, _, _, _, Run.initial, ⟨⟨by decide, rfl, by decide⟩, by decide, rfl⟩, by decide,
    linked_initial.expansion_returns (by decide) (by decide), rfl, ?_⟩
  rintro ⟨seeds, region_indices, _, v, n, s, m, hn, hwhite, hpath, _⟩
  match v with
  | 0 =>
    cases hn
    cases hpath
  | 1 =>
    cases hn
    cases hpath
  | 2 =>
    cases hn
    cases hwhite
  | 3 =>
    cases hn
    cases hpath
  | v + 4 => cases hn

end aflnet.mcts
