import AflnetLegion.Mcts.Track

open Checked

namespace aflnet.mcts

/-- What `is_fully_explored` relies on: a Black node has one child and no SimNode. -/
def MctsTree.ChainAt (t : MctsTree) (v : NodeId) : Prop :=
  ∀ n, t.nodes[v]? = some n → n.data.colour = .Black → ∃ c, n.children = [c] ∧ t.colour? c ≠ some .Golden

/-- Whether a node is on a chain depends on links and colours only. -/
theorem MctsTree.ChainAt.of_label {t t' : MctsTree} {v : NodeId} (h : t.ChainAt v) (hsame : SameBy GNode.label t t') :
    t'.ChainAt v := by
  intro n' hn' hblack
  obtain ⟨n, hn, heq⟩ := hsame.symm.exists_node hn'
  obtain ⟨c, hchildren, hcolour⟩ := h n hn ((GNode.colour_of_label heq).trans hblack)
  refine ⟨c, (GNode.children_of_label heq).symm.trans hchildren, ?_⟩
  rw [hsame.colour?]
  exact hcolour

theorem MctsTree.ChainAt.add {t : MctsTree} (h : Linked t) {v u : NodeId} (hv : t.ChainAt v) (hne : u ≠ v)
    (hlt : v < t.nodes.length) (d : TreeNodeData) : (t.add u d).ChainAt v := by
  intro n hn hblack
  obtain ⟨m, hm⟩ := MctsTree.getElem?_of_lt hlt
  rw [MctsTree.getElem?_add_ne d hm hne] at hn
  cases hn
  obtain ⟨c, hchildren, hcolour⟩ := hv _ hm hblack
  obtain ⟨k, hk, _⟩ := h.child hm (by rw [hchildren]; exact List.mem_singleton.mpr rfl)
  exact ⟨c, hchildren, by rw [MctsTree.colour?_add d (MctsTree.lt_of_getElem? hk)]; exact hcolour⟩

/-- Turning another node White. -/
theorem MctsTree.ChainAt.dye {t : MctsTree} (h : Linked t) {v u : NodeId} (hu : u < t.nodes.length)
    (hv : t.ChainAt v) (hne : u ≠ v) (path : List UInt32) : (t.dye u path).ChainAt v := by
  intro n hn hblack
  rcases MctsTree.getElem?_of_dye hu hn with ⟨rfl, rfl⟩ | ⟨m, hm, rfl⟩
  · cases hblack
  · rw [if_neg hne] at hblack ⊢
    obtain ⟨c, hchildren, hcolour⟩ := hv m hm hblack
    obtain ⟨k, hk, _⟩ := h.child hm (by rw [hchildren]; exact List.mem_singleton.mpr rfl)
    refine ⟨c, hchildren, ?_⟩
    by_cases huc : u = c
    · subst huc
      rw [MctsTree.colour?_eq (MctsTree.getElem?_dye_self hk path)]
      simp
    · rw [MctsTree.colour?_dye path (MctsTree.lt_of_getElem? hk) huc]
      exact hcolour

/-- The calls of `Expansion` that leave every Black node with one child. A new path
has to branch off at a White node or at one it matches exactly, and it has to be
matched by a region with more than the initial state. -/
structure KeepsChains (t : MctsTree) (q : queue_entry) (response_codes : List UInt32) : Prop where
  plain : Plain response_codes
  prefixed : Prefixed q response_codes
  branch : ∀ v depth, depth < response_codes.length → t.At v (response_codes.take depth) →
    ¬ t.Has (response_codes.take (depth + 1)) →
    t.colour? v = some .White ∨ exact_at (scanned_lengths q response_codes) depth = true
  leaf : ¬ t.Has response_codes → ∃ len ∈ scanned_lengths q response_codes, 2 ≤ len

namespace Walk

/-- Between two iterations only the node of the walk may lack its child, namely if it was just
appended. The next iteration gives it one, or the walk ends and it is turned White. -/
structure Chained (s : Walk) : Prop where
  others : ∀ v, v ≠ s.tree_node → s.tree.ChainAt v
  old : s.new_node = false → s.tree.ChainAt s.tree_node
  new : s.new_node = true → ∀ n, s.tree.nodes[s.tree_node]? = some n → n.data.colour = .Black → n.children = []

variable {t : MctsTree} {q : queue_entry} {response_codes : List UInt32} {depth : Nat} {code : UInt32} {s : Walk}

/-- Where a response branches off at a Black node, that node is a new one: an old one
would be matched exactly, and a new path does not branch off there. -/
theorem Sound.new_of_black (hs : s.Sound q response_codes depth) (ht : s.Tracked t q response_codes depth)
    (hkeeps : KeepsChains t q response_codes) (hlt : depth < response_codes.length)
    (habsent : ¬ t.Has (response_codes.take (depth + 1))) (hblack : s.tree.colour? s.tree_node = some .Black) :
    s.new_node = true := by
  by_contra hold
  obtain ⟨hat, hrest⟩ := ht.old_black (Bool.eq_false_iff.mpr hold)
  obtain ⟨hcolour, hexact⟩ := hrest hblack
  rcases hkeeps.branch _ depth hlt hat habsent with hwhite | hmatch
  · rw [hcolour] at hwhite
    cases hwhite
  · have hroot : 2 ≤ depth := by
      by_contra hshort
      have hone : depth = 1 := by
        have hpos := ht.positive
        omega
      subst hone
      rw [hkeeps.plain.take_one] at hat
      have hisroot : s.tree_node = ROOT := hs.shape.at_unique
        (hkeeps.plain.take_one ▸ hs.here) hs.shape.at_root
      obtain ⟨r, hr, _, hwhite⟩ := hs.shape.root
      rw [hisroot, MctsTree.colour?_eq hr, hwhite] at hblack
      cases hblack
    exact absurd (hexact (ht.covers.exact_iff.mpr ⟨hroot, hmatch⟩)) (Nat.ne_of_lt hlt)

/-- A node is appended below a White node or below a new one. -/
theorem Chained.grown (h : s.Chained) (hs : s.Sound q response_codes depth) (ht : s.Tracked t q response_codes depth)
    (hkeeps : KeepsChains t q response_codes) (hcode : response_codes[depth]? = some code) (h999 : code ≠ 999) :
    (∀ v, v ≠ s.next depth response_codes.length code → (s.grown response_codes depth code).ChainAt v) ∧
    (s.appends depth response_codes.length code = false →
      (s.grown response_codes depth code).ChainAt (s.next depth response_codes.length code)) ∧
    (s.appends depth response_codes.length code = true → ∀ n,
      (s.grown response_codes depth code).nodes[s.next depth response_codes.length code]? = some n → n.children = []) := by
  have hlt := (List.getElem?_eq_some_iff.mp hcode).1
  have hlabel := (s.tree.unmark_same s.tree_node depth response_codes.length).label
  have hlinked : Linked (s.unmarked depth response_codes.length) := (hs.shape.of_label hlabel).toLinked
  have hhere : (s.unmarked depth response_codes.length).At s.tree_node (response_codes.take depth) :=
    hs.here.of_label hlabel
  have happends := (hs.grow hcode h999).1
  rw [Walk.grown, Walk.next]
  cases hnew : s.appends depth response_codes.length code with
  | false =>
    have hold : s.new_node = false := (Bool.or_eq_false_iff.mp hnew).1
    have hall : ∀ v, (s.unmarked depth response_codes.length).ChainAt v := by
      intro v
      by_cases hv : v = s.tree_node
      · rw [hv]
        exact (h.old hold).of_label hlabel
      · exact (h.others v hv).of_label hlabel
    exact ⟨fun v _ => hall v, fun _ => hall _, fun hfalse => absurd hfalse Bool.false_ne_true⟩
  | true =>
    have habsent : ¬ t.Has (response_codes.take (depth + 1)) := by
      rintro ⟨v, hv⟩
      exact happends.mp hnew v (((ht.below _ (Nat.lt_succ_self _) hlt) v).1.mpr hv)
    refine ⟨?_, fun hfalse => absurd hfalse.symm Bool.false_ne_true, ?_⟩
    · intro v hv n hn hblack
      simp only [if_true] at hv hn ⊢
      obtain ⟨m, hm, _, _⟩ := hhere
      by_cases hself : s.tree_node = v
      · subst hself
        rw [MctsTree.getElem?_add_parent _ hm] at hn
        cases hn
        obtain ⟨m', hm', hlinks⟩ := hlabel.symm.exists_node hm
        have hblack' : s.tree.colour? s.tree_node = some .Black := by
          rw [← hlabel.colour?]
          exact (MctsTree.colour?_eq hm).trans (congrArg some hblack)
        have hfresh := hs.new_of_black ht hkeeps hlt habsent hblack'
        have hchildren : m.children = [] := by
          rw [← GNode.children_of_label hlinks]
          exact h.new hfresh m' hm' ((GNode.colour_of_label hlinks).trans hblack)
        refine ⟨_, by rw [hchildren]; rfl, ?_⟩
        rw [MctsTree.colour?_eq (MctsTree.getElem?_add_new _ _ _)]
        simp [TreeNodeData.fresh]
      · have hvlt : v < (s.unmarked depth response_codes.length).nodes.length := by
          have hbound := MctsTree.lt_of_getElem? hn
          rw [MctsTree.length_add] at hbound
          exact Nat.lt_of_le_of_ne (Nat.le_of_lt_succ hbound) hv
        exact ((h.others v (Ne.symm hself)).of_label hlabel).add hlinked hself hvlt _ n hn hblack
    · intro _ n hn
      simp only [if_true, MctsTree.getElem?_add_new] at hn
      cases hn
      rfl

/-- One iteration keeps the chains. If it appends a node, that node has no child yet, and the
next iteration gives it one. -/
protected theorem Chained.visit (h : s.Chained) (hs : s.Sound q response_codes depth)
    (ht : s.Tracked t q response_codes depth) (hkeeps : KeepsChains t q response_codes)
    (hcode : response_codes[depth]? = some code) (h999 : code ≠ 999) :
    (visit q response_codes depth code s).Chained := by
  obtain ⟨hothers, hold, hnew⟩ := h.grown hs ht hkeeps hcode h999
  obtain ⟨_, hshape, hat⟩ := hs.grow hcode h999
  have hdyed : (∀ v, v ≠ s.next depth response_codes.length code → (s.dyed q response_codes depth code).ChainAt v) ∧
      (s.appends depth response_codes.length code = false →
        (s.dyed q response_codes depth code).ChainAt (s.next depth response_codes.length code)) ∧
      (s.appends depth response_codes.length code = true → ∀ n,
        (s.dyed q response_codes depth code).nodes[s.next depth response_codes.length code]? = some n →
          n.data.colour = .Black → n.children = []) := by
    rw [Walk.dyed]
    split
    · have hwhite : ∀ n, ((s.grown response_codes depth code).dye (s.next depth response_codes.length code)
          (response_codes.take (depth + 1))).nodes[s.next depth response_codes.length code]? = some n →
          n.data.colour ≠ .Black := by
        intro n hn
        obtain ⟨m, hm, _⟩ := hat
        rw [MctsTree.getElem?_dye_self hm] at hn
        cases hn
        simp
      exact ⟨fun v hv => (hothers v hv).dye hshape.toLinked hat.lt (Ne.symm hv) _,
        fun _ n hn hblack => absurd hblack (hwhite n hn), fun _ n hn hblack => absurd hblack (hwhite n hn)⟩
    · exact ⟨hothers, hold, fun hyes n hn _ => hnew hyes n hn⟩
  have hsame : MctsTree.SameBy GNode.label (s.dyed q response_codes depth code)
      (visit q response_codes depth code s).tree := by
    rw [visit_eq]
    dsimp only
    split
    · exact MctsTree.seed_matched_label _ _ _ _ _
    · exact MctsTree.SameBy.refl _
  have hnode : (visit q response_codes depth code s).tree_node = s.next depth response_codes.length code := by
    rw [visit_eq]
  have hflag : (visit q response_codes depth code s).new_node = s.appends depth response_codes.length code := by
    rw [visit_eq]
  constructor
  · intro v hv
    rw [hnode] at hv
    exact (hdyed.1 v hv).of_label hsame
  · intro hno
    rw [hflag] at hno
    rw [hnode]
    exact (hdyed.2.1 hno).of_label hsame
  · intro hyes n hn hblack
    rw [hflag] at hyes
    rw [hnode] at hn
    obtain ⟨m, hm, heq⟩ := hsame.symm.exists_node hn
    rw [← GNode.children_of_label heq]
    exact hdyed.2.2 hyes m hm ((GNode.colour_of_label heq).trans hblack)

end Walk

/-- A call that meets the condition leaves every Black node with one child. The last node of the
walk is White or has its child already. -/
theorem MctsTree.ChainAt.expand {t : MctsTree} (hshape : Shape t) (h : ∀ v, t.ChainAt v) {q : queue_entry}
    (hregions : 0 < q.region_count) {response_codes : List UInt32} (hkeeps : KeepsChains t q response_codes) (v : NodeId) :
    (t.expand q response_codes).1.ChainAt v := by
  have hstart : (Walk.start (t.seed ROOT q 0) ROOT).Chained :=
    ⟨fun v _ => (h v).of_label (t.seed_label ROOT q 0), fun _ => (h ROOT).of_label (t.seed_label ROOT q 0),
      fun hfalse => absurd hfalse Bool.false_ne_true⟩
  obtain ⟨htracked, hchained⟩ := hshape.walk_tracked hregions hkeeps.plain hkeeps.prefixed
    (J := fun _ s => s.Chained) (fun hs ht hcode h999 ih => ih.visit hs ht hkeeps hcode h999) hstart
  have hsound := hshape.walk_sound hregions hkeeps.plain
  have hlong := hkeeps.plain.long
  refine MctsTree.ChainAt.of_label ?_ (MctsTree.finish_same hsound.here.lt _).label
  by_cases hv : v = (t.walk q response_codes).tree_node
  · subst hv
    cases hnew : (t.walk q response_codes).new_node with
    | false => exact hchained.old hnew
    | true =>
      have habsent := htracked.new_iff.mp hnew
      rw [List.take_length] at habsent
      have hexact := htracked.covers.exact_iff.mpr ⟨hlong, exact_at_length hkeeps.prefixed (hkeeps.leaf habsent)⟩
      intro n hn hblack
      have hwhite := htracked.new_white hnew hexact
      rw [MctsTree.colour?_eq hn, hblack] at hwhite
      cases hwhite
  · exact hchained.others v hv

theorem chain_initial (v : NodeId) : MctsTree.initial.ChainAt v := by
  intro n hn hblack
  match v with
  | 0 =>
    cases hn
    cases hblack
  | 1 =>
    cases hn
    cases hblack
  | v + 2 => cases hn

/-- After every run whose expansions meet the condition, every Black node has exactly one child,
which is not a SimNode. The condition is about each call and the tree before it: a new path must
not branch off at a Black node that it does not match exactly. -/
theorem Run.black_nodes_have_one_child {calls : List Call} {t : MctsTree} (hrun : Run KeepsChains calls t) (v : NodeId)
    (n : GNode) (hv : t.nodes[v]? = some n) (hblack : n.data.colour = .Black) :
    ∃ c, n.children = [c] ∧ t.colour? c ≠ some .Golden :=
  (hrun.shape_rule (fun ok => ok.plain) (J := fun _ t => ∀ v, t.ChainAt v) chain_initial
    (fun hshape ih hkeeps hregions => MctsTree.ChainAt.expand hshape ih hregions hkeeps)
    (fun ih hsame v => (ih v).of_label hsame.label)).2 v n hv hblack

/-- A request whose answer adds the codes 1 and `code` at once. -/
def burst_entry (code : UInt32) : queue_entry := .of_regions "id:000002" [.annotated 0 9 [0, 1, code]]

theorem at_initial_root {v : NodeId} {x : List UInt32} (h : MctsTree.initial.At v x) : v = ROOT := by
  obtain ⟨n, hn, hcolour, _⟩ := h
  match v with
  | 0 => rfl
  | 1 =>
    cases hn
    exact absurd rfl hcolour
  | v + 2 => cases hn

/-- The first burst meets the condition, as it adds its codes below a White node. -/
theorem keeps_chains_burst : KeepsChains .initial (burst_entry 2) [0, 1, 2] where
  plain := ⟨by decide, rfl, by decide⟩
  prefixed := by decide
  branch := by
    intro v depth _ hv _
    rw [at_initial_root hv]
    exact Or.inl rfl
  leaf := fun _ => ⟨3, by decide, by decide⟩

/-- After it the Black node of code 1 has a single child. -/
theorem black_node_of_burst : ∃ c, (MctsTree.initial.expand (burst_entry 2) [0, 1, 2]).1.nodes[2]?.map GNode.children =
    some [c] := by
  have hrun := Run.initial.expand keeps_chains_burst (by decide) (by decide)
  obtain ⟨c, hc, _⟩ := Run.black_nodes_have_one_child hrun 2 _ rfl rfl
  exact ⟨c, congrArg some hc⟩

/-- Two bursts that share their first code give a Black node two children. -/
theorem black_node_with_two_children : ∃ calls t, Run WellAnnotated calls t ∧
    t.colour? 2 = some .Black ∧ t.nodes[2]?.map GNode.children = some [3, 5] := by
  have hfirst : WellAnnotated .initial (burst_entry 2) [0, 1, 2] := ⟨⟨by decide, rfl, by decide⟩, by decide, rfl⟩
  have hsecond : WellAnnotated (MctsTree.initial.expand (burst_entry 2) [0, 1, 2]).1 (burst_entry 3) [0, 1, 3] :=
    ⟨⟨by decide, rfl, by decide⟩, by decide, rfl⟩
  have hrun := (Run.initial.expand hfirst (by decide) (by decide)).expand hsecond (by decide) (by decide)
  exact ⟨_, _, hrun, rfl, rfl⟩

end aflnet.mcts
