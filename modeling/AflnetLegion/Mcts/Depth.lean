import AflnetLegion.Mcts.Grow

open Checked

namespace aflnet.mcts

/-- How many nodes there should be on the way from the root to a node: as many as its path has
codes, and one more for a SimNode, which has the path of its parent. -/
def TreeNodeData.depth (d : TreeNodeData) : Nat := if d.colour = .Golden then d.path_len + 1 else d.path_len

theorem TreeNodeData.path_len_le_depth (d : TreeNodeData) : d.path_len ≤ d.depth := by
  rw [TreeNodeData.depth]
  split <;> omega

theorem TreeNodeData.depth_of_ne {d : TreeNodeData} (h : d.colour ≠ .Golden) : d.depth = d.path_len := if_neg h

theorem GNode.depth_of_label {n m : GNode} (h : n.label = m.label) : n.data.depth = m.data.depth := by
  rw [TreeNodeData.depth, TreeNodeData.depth, TreeNodeData.path_len, TreeNodeData.path_len, GNode.colour_of_label h,
    GNode.path_of_label h]

/-- The paths are as long as they should be, whatever codes they are made of: from a node to its
child the depth goes up by one, and a SimNode that is in use has as many codes as its owner. -/
structure Measured (t : MctsTree) : Prop where
  root : ∀ {r : GNode}, t.nodes[ROOT]? = some r → r.data.depth = 1
  child : ∀ {v u : NodeId} {n m : GNode}, t.nodes[v]? = some n → n.parent = some u → t.nodes[u]? = some m →
    n.data.depth = m.data.depth + 1
  simulation : ∀ {v s : NodeId} {n m : GNode}, t.nodes[v]? = some n → n.data.colour = .White →
    n.data.simulation_child = some s → t.nodes[s]? = some m → m.data.path_len = n.data.path_len

namespace Measured

variable {t : MctsTree}

/-- The lengths depend on links, ids, colours and paths only. -/
theorem of_label {t' : MctsTree} (h : Measured t) (hsame : MctsTree.SameBy GNode.label t t') : Measured t' := by
  have hback : ∀ {v : NodeId} {n' : GNode}, t'.nodes[v]? = some n' → ∃ n, t.nodes[v]? = some n ∧ n.label = n'.label :=
    fun hv => hsame.symm.exists_node hv
  constructor
  · intro r' hr'
    obtain ⟨r, hr, hlabel⟩ := hback hr'
    rw [← GNode.depth_of_label hlabel]
    exact h.root hr
  · intro v u n' m' hv hparent hu
    obtain ⟨n, hn, hn'⟩ := hback hv
    obtain ⟨m, hm, hm'⟩ := hback hu
    rw [← GNode.depth_of_label hn', ← GNode.depth_of_label hm']
    exact h.child hn ((GNode.parent_of_links (GNode.links_of_label hn')).trans hparent) hm
  · intro v s n' m' hv hwhite hsim hs
    obtain ⟨n, hn, hn'⟩ := hback hv
    obtain ⟨m, hm, hm'⟩ := hback hs
    rw [TreeNodeData.path_len, TreeNodeData.path_len, ← GNode.path_of_label hm', ← GNode.path_of_label hn']
    exact h.simulation hn ((GNode.colour_of_label hn').trans hwhite)
      ((congrArg Links.simulation_child (GNode.links_of_label hn')).trans hsim) hm

/-- A new child one step below its parent, which is not White yet. -/
theorem add (h : Measured t) (ht : Linked t) {v : NodeId} {n : GNode} (hv : t.nodes[v]? = some n) {d : TreeNodeData}
    (hwhite : d.colour ≠ .White) (hd : d.depth = n.data.depth + 1) : Measured (t.add v d) := by
  have hlt := MctsTree.lt_of_getElem? hv
  constructor
  · intro r hr
    rcases MctsTree.getElem?_of_add hr with ⟨hroot, _⟩ | ⟨old, hold, _, hdata, _⟩
    · exact absurd hroot (Nat.ne_of_lt (Nat.lt_of_le_of_lt (Nat.zero_le v) hlt))
    · rw [hdata]
      exact h.root hold
  · intro w u k m hw hparent hu
    rcases MctsTree.getElem?_of_add hu with ⟨rfl, rfl⟩ | ⟨m', hm', hult, hmdata, _⟩ <;>
      rcases MctsTree.getElem?_of_add hw with ⟨rfl, rfl⟩ | ⟨k', hk', _, hkdata, hkparent, _⟩
    · exact absurd (Option.some.inj hparent) (Nat.ne_of_lt hlt)
    · rw [hkparent] at hparent
      obtain ⟨p, hp, _⟩ := ht.exists_parent hk' hparent
      exact absurd (MctsTree.lt_of_getElem? hp) (Nat.lt_irrefl _)
    · cases hparent
      rw [hv] at hm'
      cases hm'
      rw [hmdata]
      exact hd
    · rw [hkparent] at hparent
      rw [hkdata, hmdata]
      exact h.child hk' hparent hm'
  · intro w s k m hw hcolour hsim hs
    rcases MctsTree.getElem?_of_add hw with ⟨rfl, rfl⟩ | ⟨k', hk', _, hkdata, _⟩
    · exact absurd hcolour hwhite
    · rw [hkdata] at hcolour hsim ⊢
      obtain ⟨s', l, hs', hl, _⟩ := ht.sim hk' hcolour
      rw [hsim] at hs'
      cases hs'
      rcases MctsTree.getElem?_of_add hs with ⟨rfl, rfl⟩ | ⟨m', hm', _, hmdata, _⟩
      · exact absurd (MctsTree.lt_of_getElem? hl) (Nat.lt_irrefl _)
      · rw [hmdata]
        exact h.simulation hk' hcolour hsim hm'

/-- Turning a Black node White gives it a SimNode with its own path. -/
theorem dye (h : Measured t) (ht : Linked t) {v : NodeId} {n : GNode} (hv : t.nodes[v]? = some n)
    (hblack : n.data.colour = .Black) {path : List UInt32} (hpath : path.length = n.data.depth) :
    Measured (t.dye v path) := by
  have hlt := MctsTree.lt_of_getElem? hv
  have hlen : path.length = n.data.path_len := by
    rw [hpath, TreeNodeData.depth_of_ne (by simp [hblack])]
  -- an old node keeps its parent, its path and its depth
  have hback : ∀ {u : NodeId} {m' : GNode}, (t.dye v path).nodes[u]? = some m' → u ≠ t.nodes.length →
      ∃ m, t.nodes[u]? = some m ∧ m'.parent = m.parent ∧ m'.data.path_len = m.data.path_len ∧
        m'.data.depth = m.data.depth ∧ (v ≠ u → m' = m) := by
    intro u m' hu hne
    rcases MctsTree.getElem?_of_dye hlt hu with ⟨heq, _⟩ | ⟨m, hm, rfl⟩
    · exact absurd heq hne
    · refine ⟨m, hm, ?_⟩
      by_cases hvu : v = u
      · subst hvu
        rw [hv] at hm
        cases hm
        rw [if_pos rfl]
        refine ⟨rfl, rfl, ?_, fun hne => absurd rfl hne⟩
        rw [TreeNodeData.depth_of_ne (by simp), TreeNodeData.depth_of_ne (by simp [hblack])]
        rfl
      · rw [if_neg hvu]
        exact ⟨rfl, rfl, rfl, fun _ => rfl⟩
  have hnew := MctsTree.getElem?_dye_new hlt path
  constructor
  · intro r hr
    obtain ⟨r', hr', _, _, hdepth, _⟩ := hback hr (Nat.ne_of_lt (Nat.lt_of_le_of_lt (Nat.zero_le v) hlt))
    rw [hdepth]
    exact h.root hr'
  · intro w u k m hw hparent hu
    by_cases hwnew : w = t.nodes.length
    · subst hwnew
      rw [hnew] at hw
      cases hw
      cases hparent
      obtain ⟨m', hm', _, _, hdepth, _⟩ := hback hu (Nat.ne_of_lt hlt)
      rw [hv] at hm'
      cases hm'
      rw [hdepth, ← hpath]
      rfl
    · obtain ⟨k', hk', hkparent, _, hkdepth, _⟩ := hback hw hwnew
      rw [hkparent] at hparent
      obtain ⟨p, hp, _⟩ := ht.exists_parent hk' hparent
      obtain ⟨m', hm', _, _, hmdepth, _⟩ := hback hu (Nat.ne_of_lt (MctsTree.lt_of_getElem? hp))
      rw [hkdepth, hmdepth]
      exact h.child hk' hparent hm'
  · intro w s k m hw hcolour hsim hs
    by_cases hwnew : w = t.nodes.length
    · subst hwnew
      rw [hnew] at hw
      cases hw
      cases hcolour
    · obtain ⟨k', hk', _, hklen, _, hsame⟩ := hback hw hwnew
      by_cases hvw : v = w
      · subst hvw
        rw [MctsTree.getElem?_dye_self hv] at hw
        cases hw
        cases hsim
        rw [hnew] at hs
        cases hs
        exact hlen
      · obtain rfl := hsame hvw
        obtain ⟨s', l, hs', hl, _⟩ := ht.sim hk' hcolour
        rw [hsim] at hs'
        cases hs'
        obtain ⟨m', hm', _, hmlen, _⟩ := hback hs (Nat.ne_of_lt (MctsTree.lt_of_getElem? hl))
        rw [hmlen]
        exact h.simulation hk' hcolour hsim hm'

theorem initial : Measured .initial := by
  constructor
  · intro r hr
    cases hr
    rfl
  · intro v u n m hv hparent hu
    match v with
    | 0 =>
      cases hv
      cases hparent
    | 1 =>
      cases hv
      cases hparent
      cases hu
      rfl
    | v + 2 => cases hv
  · intro v s n m hv hwhite hsim hs
    match v with
    | 0 =>
      cases hv
      cases hsim
      cases hs
      rfl
    | 1 =>
      cases hv
      cases hwhite
    | v + 2 => cases hv

end Measured

/-- Between two iterations of the second round the walk stands as deep as it has read codes. -/
structure Walk.Measured (q : queue_entry) (path_index : Nat) (s : Walk) : Prop where
  ready : s.Ready q
  measured : mcts.Measured s.tree
  here : ∀ n, s.tree.nodes[s.tree_node]? = some n → n.data.depth = path_index

namespace Walk.Measured

variable {q : queue_entry} {response_codes : List UInt32} {path_index : Nat} {code : UInt32} {s : Walk} {t : MctsTree}

theorem start (h : mcts.Measured t) (ht : Linked t) (hregions : 0 < q.region_count) :
    (Walk.start (t.seed ROOT q 0) ROOT).Measured q 1 where
  ready := ht.start_ready hregions
  measured := h.of_label (t.seed_label ROOT q 0)
  here := fun _ hr => (h.of_label (t.seed_label ROOT q 0)).root hr

/-- The tree once the iteration has found or appended its node: this is one deeper. -/
theorem grown (h : s.Measured q path_index) (hlt : path_index < response_codes.length) (code : UInt32) :
    Linked (s.grown response_codes path_index code) ∧ mcts.Measured (s.grown response_codes path_index code) ∧
    ∃ n, (s.grown response_codes path_index code).nodes[s.next path_index response_codes.length code]? = some n ∧
      n.data.depth = path_index + 1 := by
  have hlabel := (s.tree.unmark_same s.tree_node path_index response_codes.length).label
  obtain ⟨hlinked, hlength, _⟩ := h.ready.unmark path_index response_codes.length
  have hmeasured : mcts.Measured (s.unmarked path_index response_codes.length) := h.measured.of_label hlabel
  have hhere : ∃ n, (s.unmarked path_index response_codes.length).nodes[s.tree_node]? = some n ∧
      n.data.depth = path_index := by
    obtain ⟨n, hn⟩ := MctsTree.getElem?_of_lt h.ready.present
    obtain ⟨n', hn', hsame⟩ := hlabel.exists_node hn
    exact ⟨n', hn', (GNode.depth_of_label hsame).trans (h.here n hn)⟩
  have hlinked' : Linked (s.unmarked path_index response_codes.length) := hlinked
  have happends : s.appends path_index response_codes.length code =
      (s.new_node || ((s.unmarked path_index response_codes.length).child_with_id s.tree_node code).isNone) := rfl
  rw [Walk.grown, Walk.next]
  generalize s.unmarked path_index response_codes.length = t at hmeasured hhere hlinked' happends ⊢
  obtain ⟨n, hn, hdepth⟩ := hhere
  cases hnew : s.appends path_index response_codes.length code with
  | true =>
    have hpath : (TreeNodeData.fresh code .Black (response_codes.take (path_index + 1))).depth = path_index + 1 := by
      rw [TreeNodeData.depth_of_ne (by simp [TreeNodeData.fresh])]
      exact List.length_take_of_le hlt
    rw [if_pos rfl, if_pos rfl]
    exact ⟨hlinked'.add hn (by simp [TreeNodeData.fresh]),
      hmeasured.add hlinked' hn (by simp [TreeNodeData.fresh]) (by rw [hpath, hdepth]),
      _, MctsTree.getElem?_add_new _ _ _, hpath⟩
  | false =>
    rw [hnew] at happends
    obtain ⟨_, hfound⟩ := Bool.or_eq_false_iff.mp happends.symm
    obtain ⟨c, hc⟩ := Option.isSome_iff_exists.mp (Option.isNone_eq_false_iff.mp hfound)
    obtain ⟨_, m, hm, hparent, _⟩ := hlinked'.child_with_id_spec hn hc
    rw [if_neg Bool.false_ne_true, if_neg Bool.false_ne_true, hc, Option.getD_some]
    exact ⟨hlinked', hmeasured, m, hm, by rw [hmeasured.child hm hparent hn, hdepth]⟩

/-- The tree once the iteration has turned its node White, if it does. -/
theorem dyed (h : s.Measured q path_index) (hlt : path_index < response_codes.length) (code : UInt32) :
    Linked (s.dyed q response_codes path_index code) ∧ mcts.Measured (s.dyed q response_codes path_index code) ∧
    ∃ n, (s.dyed q response_codes path_index code).nodes[s.next path_index response_codes.length code]? = some n ∧
      n.data.depth = path_index + 1 := by
  refine Walk.dyed_of_grown (I := fun t => Linked t ∧ mcts.Measured t ∧
    ∃ n, t.nodes[s.next path_index response_codes.length code]? = some n ∧ n.data.depth = path_index + 1)
    (h.grown hlt code) ?_
  rintro t ⟨hlinked, hmeasured, n, hn, hdepth⟩ hblack
  rw [MctsTree.colour?_eq hn] at hblack
  have hcolour := Option.some.inj hblack
  have hpath : (response_codes.take (path_index + 1)).length = n.data.depth := by
    rw [hdepth]
    exact List.length_take_of_le hlt
  refine ⟨hlinked.dye hn (by simp [hcolour]) _, hmeasured.dye hlinked hn hcolour hpath, _,
    MctsTree.getElem?_dye_self hn _, ?_⟩
  rw [← hdepth, TreeNodeData.depth_of_ne (by simp), TreeNodeData.depth_of_ne (by simp [hcolour])]
  rfl

/-- One iteration goes one step deeper, whether it follows a child or appends one. -/
protected theorem visit (h : s.Measured q path_index) (hcode : response_codes[path_index]? = some code) :
    (visit q response_codes path_index code s).Measured q (path_index + 1) := by
  have hlt := (List.getElem?_eq_some_iff.mp hcode).1
  obtain ⟨_, hmeasured, n, hn, hdepth⟩ := h.dyed (q := q) hlt code
  have hsame : MctsTree.SameBy GNode.label (s.dyed q response_codes path_index code)
      (mcts.visit q response_codes path_index code s).tree := by
    rw [visit_eq]
    dsimp only
    split
    · exact MctsTree.seed_matched_label _ _ _ _ _
    · exact MctsTree.SameBy.refl _
  refine ⟨(second_round_step_holds h.ready false hcode).2.1, hmeasured.of_label hsame, ?_⟩
  intro m hm
  rw [show (mcts.visit q response_codes path_index code s).tree_node = s.next path_index response_codes.length code by
    rw [visit_eq]] at hm
  obtain ⟨m', hm', hlabel⟩ := hsame.exists_node hn
  rw [hm] at hm'
  cases hm'
  rw [GNode.depth_of_label hlabel, hdepth]

/-- The second round takes the walk as deep as the response is long. -/
protected theorem visit_all (h : s.Measured q path_index) {codes : List UInt32}
    (hcodes : codes <+: response_codes.drop path_index) :
    (visit_all q response_codes path_index codes s).Measured q (path_index + codes.length) := by
  induction codes generalizing path_index s with
  | nil => exact h
  | cons code codes ih =>
    obtain ⟨rest, hsplit⟩ := hcodes
    have hcode : response_codes[path_index]? = some code := by
      rw [← List.head?_drop, ← hsplit]
      rfl
    have hrest : codes <+: response_codes.drop (path_index + 1) := by
      rw [← List.tail_drop, ← hsplit]
      exact ⟨rest, rfl⟩
    rw [visit_all, List.length_cons, Nat.add_comm codes.length 1, ← Nat.add_assoc]
    exact ih (h.visit hcode) hrest

end Walk.Measured

/-- `Expansion` keeps the lengths right, whatever codes the response has. -/
theorem Measured.expand {t : MctsTree} (h : Measured t) (ht : Linked t) {q : queue_entry} (hregions : 0 < q.region_count)
    (response_codes : List UInt32) : Measured (t.expand q response_codes).1 := by
  have hwalk := (Walk.Measured.start (q := q) h ht hregions).visit_all
    (show response_codes.tail <+: response_codes.drop 1 by simp)
  exact hwalk.measured.of_label (MctsTree.finish_same hwalk.ready.present _).label

/-- In every tree of a run the paths are as long as the nodes are deep, whatever codes the
server returned. -/
theorem Run.measured {Ok : MctsTree → queue_entry → List UInt32 → Prop} {calls : List Call} {t : MctsTree}
    (hrun : Run Ok calls t) : Measured t :=
  (hrun.skeleton_invariant (I := fun _ t => Measured t) Measured.initial
    (fun _ _ _ _ ht ih _ hregions _ => ih.expand ht hregions _) (fun _ _ _ ih hsame => ih.of_label hsame.label)).2

end aflnet.mcts
