import AflnetLegion.Mcts.Run

open Checked

namespace aflnet.mcts

/-- What the trie reads of a node: its links, its id and its path. Seeds, counters and flags do
not matter for it. -/
structure Label where
  links : Links
  id : UInt32
  path : List UInt32

/-- The label of a node. -/
def GNode.label (n : GNode) : Label := { links := n.links, id := n.data.id, path := n.data.path }

section label

variable {n m : GNode} (h : n.label = m.label)

include h

theorem GNode.links_of_label : n.links = m.links := congrArg Label.links h

theorem GNode.path_of_label : n.data.path = m.data.path := congrArg Label.path h

theorem GNode.children_of_label : n.children = m.children := children_of_links (links_of_label h)

theorem GNode.colour_of_label : n.data.colour = m.data.colour := colour_of_links (links_of_label h)

end label

theorem MctsTree.SameBy.label {t t' : MctsTree} (h : SameBy GNode.skeleton t t') : SameBy GNode.label t t' :=
  h.map fun s => Label.mk s.links s.id s.path

/-- `v` is the node of the response prefix `x`, and not a SimNode. -/
def MctsTree.At (t : MctsTree) (v : NodeId) (x : List UInt32) : Prop :=
  ∃ n, t.nodes[v]? = some n ∧ n.data.colour ≠ .Golden ∧ n.data.path = x

/-- The shape of a tree built from responses without the code 999: every node but
the root extends its parent's path by its id, except that the one SimNode of a
White node shares its path, has the id 999 and no children. -/
structure Shape (t : MctsTree) : Prop extends Linked t where
  at_root : t.At ROOT [0]
  root_id : t.nodes[ROOT]?.map (fun n => n.data.id) = some 0
  colours : ∀ {v : NodeId} {n : GNode}, t.nodes[v]? = some n →
    n.data.colour = .White ∨ n.data.colour = .Golden ∨ n.data.colour = .Black
  golden : ∀ {v : NodeId} {n : GNode}, t.nodes[v]? = some n → n.data.colour = .Golden →
    n.children = [] ∧ n.data.id = 999 ∧ ∃ u m, n.parent = some u ∧ t.nodes[u]? = some m ∧
      m.data.colour = .White ∧ m.data.simulation_child = some v ∧ n.data.path = m.data.path
  simulation : ∀ {v : NodeId} {n : GNode}, t.nodes[v]? = some n → n.data.colour = .White →
    ∃ s m, n.data.simulation_child = some s ∧ t.nodes[s]? = some m ∧ m.parent = some v ∧ m.data.colour = .Golden
  response : ∀ {v : NodeId} {n : GNode}, t.nodes[v]? = some n → n.data.colour ≠ .Golden → v ≠ ROOT →
    n.data.id ≠ 999 ∧ ∃ u m, n.parent = some u ∧ t.nodes[u]? = some m ∧ n.data.path = m.data.path ++ [n.data.id]
  distinct : ∀ {v u : NodeId} {n m : GNode}, t.nodes[v]? = some n → t.nodes[u]? = some m →
    n.parent = m.parent → n.data.id = m.data.id → v = u

/-- A node after turning `v` White is `v` itself, the new SimNode, or an old node. -/
theorem MctsTree.getElem?_of_dye {t : MctsTree} {v u : NodeId} {path : List UInt32} {n : GNode}
    (hv : v < t.nodes.length) (h : (t.dye v path).nodes[u]? = some n) :
    (u = t.nodes.length ∧ n = { data := .fresh 999 .Golden path, parent := some v, children := [] }) ∨
      ∃ old, t.nodes[u]? = some old ∧
        n = if v = u then
          { old with
            data := { old.data with colour := .White, simulation_child := some t.nodes.length }
            children := old.children ++ [t.nodes.length] }
        else old := by
  rw [MctsTree.dye] at h
  obtain ⟨middle, hmiddle, hparent, hchildren, hdata⟩ := MctsTree.getElem?_of_modify h
  rcases MctsTree.getElem?_of_add hmiddle with ⟨rfl, rfl⟩ | ⟨old, hold, _, hdata', hparent', hchildren'⟩
  · left
    rw [if_neg (Nat.ne_of_lt hv)] at hdata
    exact ⟨rfl, by cases n; simp_all⟩
  · right
    refine ⟨old, hold, ?_⟩
    cases n
    by_cases hvu : v = u <;> simp_all

theorem MctsTree.getElem?_dye_self {t : MctsTree} {v : NodeId} {n : GNode} (hv : t.nodes[v]? = some n)
    (path : List UInt32) :
    (t.dye v path).nodes[v]? = some
      { n with
        data := { n.data with colour := .White, simulation_child := some t.nodes.length }
        children := n.children ++ [t.nodes.length] } := by
  rw [MctsTree.dye, MctsTree.getElem?_modify_self (MctsTree.getElem?_add_parent _ hv)]

theorem MctsTree.getElem?_dye_ne {t : MctsTree} {v u : NodeId} {n : GNode} (hu : t.nodes[u]? = some n)
    (hne : v ≠ u) (path : List UInt32) : (t.dye v path).nodes[u]? = some n := by
  rw [MctsTree.dye, MctsTree.getElem?_modify_ne _ hne, MctsTree.getElem?_add_ne _ hu hne]

theorem MctsTree.getElem?_dye_new {t : MctsTree} {v : NodeId} (hv : v < t.nodes.length) (path : List UInt32) :
    (t.dye v path).nodes[t.nodes.length]? =
      some { data := .fresh 999 .Golden path, parent := some v, children := [] } := by
  rw [MctsTree.dye, MctsTree.getElem?_modify_ne _ (Nat.ne_of_lt hv), MctsTree.getElem?_add_new]

/-- An old node keeps its path. -/
theorem MctsTree.exists_dye_path {t : MctsTree} (v : NodeId) {u : NodeId} {m : GNode} (hu : t.nodes[u]? = some m)
    (path : List UInt32) : ∃ m', (t.dye v path).nodes[u]? = some m' ∧ m'.data.path = m.data.path := by
  by_cases hvu : v = u
  · subst hvu
    exact ⟨_, MctsTree.getElem?_dye_self hu path, rfl⟩
  · exact ⟨m, MctsTree.getElem?_dye_ne hu hvu path, rfl⟩

/-- The parents and ids after turning `v` White. -/
theorem MctsTree.identity_of_dye {t : MctsTree} {v u : NodeId} {path : List UInt32} {m' : GNode}
    (hv : v < t.nodes.length) (hu : (t.dye v path).nodes[u]? = some m') :
    (u = t.nodes.length ∧ m'.parent = some v ∧ m'.data.id = 999) ∨
      ∃ m, t.nodes[u]? = some m ∧ m'.parent = m.parent ∧ m'.data.id = m.data.id := by
  rcases MctsTree.getElem?_of_dye hv hu with ⟨rfl, rfl⟩ | ⟨m, hm, rfl⟩
  · exact Or.inl ⟨rfl, rfl, rfl⟩
  · refine Or.inr ⟨m, hm, ?_⟩
    split <;> simp

namespace Shape

variable {t : MctsTree}

theorem parent_not_golden (h : Shape t) {v u : NodeId} {n m : GNode} (hv : t.nodes[v]? = some n)
    (hparent : n.parent = some u) (hu : t.nodes[u]? = some m) : m.data.colour ≠ .Golden := by
  intro hgolden
  have hmem := h.mem_children_of_parent hv hparent hu
  rw [(h.golden hu hgolden).1] at hmem
  cases hmem

/-- The shape depends on links, ids and paths only. -/
theorem of_label {t' : MctsTree} (h : Shape t) (hsame : MctsTree.SameBy GNode.label t t') : Shape t' := by
  have hlinks : MctsTree.SameBy GNode.links t t' := hsame.map Label.links
  have hforth : ∀ {v : NodeId} {n : GNode}, t.nodes[v]? = some n → ∃ n', t'.nodes[v]? = some n' ∧
      n'.parent = n.parent ∧ n'.children = n.children ∧ n'.data.colour = n.data.colour ∧
      n'.data.simulation_child = n.data.simulation_child ∧ n'.data.id = n.data.id ∧ n'.data.path = n.data.path := by
    intro v n hv
    obtain ⟨n', hn', heq⟩ := hsame.exists_node hv
    simp only [GNode.label, GNode.links, Label.mk.injEq, Links.mk.injEq] at heq
    obtain ⟨⟨hp, hc, hcol, hsim⟩, hid, hpath⟩ := heq
    exact ⟨n', hn', hp, hc, hcol, hsim, hid, hpath⟩
  have hback : ∀ {v : NodeId} {n' : GNode}, t'.nodes[v]? = some n' → ∃ n, t.nodes[v]? = some n ∧
      n'.parent = n.parent ∧ n'.children = n.children ∧ n'.data.colour = n.data.colour ∧
      n'.data.simulation_child = n.data.simulation_child ∧ n'.data.id = n.data.id ∧ n'.data.path = n.data.path := by
    intro v n' hv
    obtain ⟨n, hn, _⟩ := hsame.symm.exists_node hv
    obtain ⟨n'', hn'', hrest⟩ := hforth hn
    rw [hv] at hn''
    cases hn''
    exact ⟨n, hn, hrest⟩
  refine ⟨h.toLinked.of_links hlinks, ?_, ?_, ?_, ?_, ?_, ?_, ?_⟩
  · obtain ⟨r, hr, hcolour, hpath⟩ := h.at_root
    obtain ⟨r', hr', _, _, hcolour', _, _, hpath'⟩ := hforth hr
    exact ⟨r', hr', by rw [hcolour']; exact hcolour, by rw [hpath', hpath]⟩
  · obtain ⟨r, hr, hid⟩ := Option.map_eq_some_iff.mp h.root_id
    obtain ⟨r', hr', _, _, _, _, hid', _⟩ := hforth hr
    rw [hr', Option.map_some, hid', hid]
  · intro v n' hv
    obtain ⟨n, hn, _, _, hcolour, _⟩ := hback hv
    rw [hcolour]
    exact h.colours hn
  · intro v n' hv hgolden
    obtain ⟨n, hn, hp, hc, hcolour, _, hid, hpath⟩ := hback hv
    obtain ⟨hleaf, h999, u, m, hu, hm, hwhite, hsim, hsame⟩ := h.golden hn (by rw [← hcolour]; exact hgolden)
    obtain ⟨m', hm', _, _, hcolour', hsim', _, hpath'⟩ := hforth hm
    exact ⟨by rw [hc, hleaf], by rw [hid, h999], u, m', by rw [hp, hu], hm', by rw [hcolour', hwhite],
      by rw [hsim', hsim], by rw [hpath, hpath', hsame]⟩
  · intro v n' hv hwhite
    obtain ⟨n, hn, _, _, hcolour, hsim, _⟩ := hback hv
    obtain ⟨s, m, hs, hm, hp, hgolden⟩ := h.simulation hn (by rw [← hcolour]; exact hwhite)
    obtain ⟨m', hm', hp', _, hcolour', _⟩ := hforth hm
    exact ⟨s, m', by rw [hsim, hs], hm', by rw [hp', hp], by rw [hcolour', hgolden]⟩
  · intro v n' hv hresponse hne
    obtain ⟨n, hn, hp, _, hcolour, _, hid, hpath⟩ := hback hv
    obtain ⟨h999, u, m, hu, hm, hextends⟩ := h.response hn (by rw [← hcolour]; exact hresponse) hne
    obtain ⟨m', hm', _, _, _, _, _, hpath'⟩ := hforth hm
    exact ⟨by rw [hid]; exact h999, u, m', by rw [hp, hu], hm', by rw [hpath, hid, hpath', hextends]⟩
  · intro v u n' m' hv hu hparent hid
    obtain ⟨n, hn, hp, _, _, _, hid', _⟩ := hback hv
    obtain ⟨m, hm, hp', _, _, _, hid'', _⟩ := hback hu
    exact h.distinct hn hm (by rw [← hp, ← hp', hparent]) (by rw [← hid', ← hid'', hid])

/-- Appending a Black node for a code that no child has. -/
theorem add_black (h : Shape t) {v : NodeId} {n : GNode} (hv : t.nodes[v]? = some n)
    (hresponse : n.data.colour ≠ .Golden) {code : UInt32} (hcode : code ≠ 999)
    (hnew : ∀ {c : NodeId} {m : GNode}, t.nodes[c]? = some m → m.parent = some v → m.data.id ≠ code) :
    Shape (t.add v (.fresh code .Black (n.data.path ++ [code]))) := by
  have hold : ∀ {u : NodeId} {m : GNode}, t.nodes[u]? = some m →
      ∃ m', (t.add v (.fresh code .Black (n.data.path ++ [code]))).nodes[u]? = some m' ∧
        m'.data = m.data ∧ m'.parent = m.parent := by
    intro u m hu
    by_cases hvu : v = u
    · subst hvu
      exact ⟨_, MctsTree.getElem?_add_parent _ hu, rfl, rfl⟩
    · exact ⟨m, MctsTree.getElem?_add_ne _ hu hvu, rfl, rfl⟩
  refine ⟨h.toLinked.add hv (by simp [TreeNodeData.fresh]), ?_, ?_, ?_, ?_, ?_, ?_, ?_⟩
  · obtain ⟨r, hr, hcolour, hpath⟩ := h.at_root
    obtain ⟨r', hr', hd, _⟩ := hold hr
    exact ⟨r', hr', by rw [hd]; exact hcolour, by rw [hd, hpath]⟩
  · obtain ⟨r, hr, hid⟩ := Option.map_eq_some_iff.mp h.root_id
    obtain ⟨r', hr', hd, _⟩ := hold hr
    rw [hr', Option.map_some, hd, hid]
  · intro u m' hu
    rcases MctsTree.getElem?_of_add hu with ⟨rfl, rfl⟩ | ⟨m, hm, _, hd, _, _⟩
    · simp [TreeNodeData.fresh]
    · rw [hd]
      exact h.colours hm
  · intro u m' hu hgolden
    rcases MctsTree.getElem?_of_add hu with ⟨rfl, rfl⟩ | ⟨m, hm, _, hd, hp, hc⟩
    · simp [TreeNodeData.fresh] at hgolden
    · rw [hd] at hgolden
      obtain ⟨hleaf, h999, w, k, hw, hk, hwhite, hsim, hpath⟩ := h.golden hm hgolden
      obtain ⟨k', hk', hd', _⟩ := hold hk
      have hne : v ≠ u := MctsTree.ne_of_colour_ne hv hm (by rw [hgolden]; exact hresponse)
      rw [if_neg hne] at hc
      exact ⟨by rw [hc, hleaf], by rw [hd, h999], w, k', by rw [hp, hw], hk', by rw [hd', hwhite],
        by rw [hd', hsim], by rw [hd, hd', hpath]⟩
  · intro u m' hu hwhite
    rcases MctsTree.getElem?_of_add hu with ⟨rfl, rfl⟩ | ⟨m, hm, _, hd, _, _⟩
    · simp [TreeNodeData.fresh] at hwhite
    · rw [hd] at hwhite
      obtain ⟨s, k, hs, hk, hp, hgolden⟩ := h.simulation hm hwhite
      obtain ⟨k', hk', hd', hp'⟩ := hold hk
      exact ⟨s, k', by rw [hd, hs], hk', by rw [hp', hp], by rw [hd', hgolden]⟩
  · intro u m' hu hblack hne
    rcases MctsTree.getElem?_of_add hu with ⟨rfl, rfl⟩ | ⟨m, hm, _, hd, hp, _⟩
    · obtain ⟨n', hn', hd, _⟩ := hold hv
      exact ⟨hcode, v, n', rfl, hn', by rw [hd]; rfl⟩
    · rw [hd] at hblack
      obtain ⟨h999, w, k, hw, hk, hpath⟩ := h.response hm hblack hne
      obtain ⟨k', hk', hd', _⟩ := hold hk
      exact ⟨by rw [hd]; exact h999, w, k', by rw [hp, hw], hk', by rw [hd, hd', hpath]⟩
  · intro u w m' k' hu hw hparent hid
    rcases MctsTree.getElem?_of_add hu with ⟨rfl, rfl⟩ | ⟨m, hm, _, hd, hp, _⟩ <;>
      rcases MctsTree.getElem?_of_add hw with ⟨rfl, rfl⟩ | ⟨k, hk, _, hd', hp', _⟩
    · rfl
    · rw [hp'] at hparent
      rw [hd'] at hid
      exact absurd hid.symm (hnew hk hparent.symm)
    · rw [hp] at hparent
      rw [hd] at hid
      exact absurd hid (hnew hm hparent)
    · exact h.distinct hm hk (by rw [← hp, ← hp', hparent]) (by rw [← hd, ← hd', hid])

/-- The children of a Black node are response nodes. -/
theorem ne_999_of_black (h : Shape t) {v c : NodeId} {n m : GNode} (hv : t.nodes[v]? = some n)
    (hblack : n.data.colour = .Black) (hc : t.nodes[c]? = some m) (hp : m.parent = some v) : m.data.id ≠ 999 := by
  have hcolour : m.data.colour ≠ .Golden := by
    intro hgolden
    obtain ⟨_, _, w, k, hw, hk, hwhite, _⟩ := h.golden hc hgolden
    have hne : v ≠ w := MctsTree.ne_of_colour_ne hv hk (by simp [hblack, hwhite])
    exact hne (Option.some.inj (hp.symm.trans hw))
  exact (h.response hc hcolour (h.ne_root_of_parent hc hp)).1

/-- Turning a Black node White together with its new SimNode. -/
theorem dye (h : Shape t) {v : NodeId} {n : GNode} (hv : t.nodes[v]? = some n) (hblack : n.data.colour = .Black) :
    Shape (t.dye v n.data.path) := by
  have hlt := MctsTree.lt_of_getElem? hv
  have hself := MctsTree.getElem?_dye_self hv n.data.path
  have hnotroot := h.ne_root_of_black hv hblack
  refine ⟨h.toLinked.dye hv (by simp [hblack]) _, ?_, ?_, ?_, ?_, ?_, ?_, ?_⟩
  · obtain ⟨r, hr, hcolour, hpath⟩ := h.at_root
    exact ⟨r, MctsTree.getElem?_dye_ne hr hnotroot _, hcolour, hpath⟩
  · obtain ⟨r, hr, hid⟩ := Option.map_eq_some_iff.mp h.root_id
    rw [MctsTree.getElem?_dye_ne hr hnotroot, Option.map_some, hid]
  · intro u m' hu
    rcases MctsTree.getElem?_of_dye hlt hu with ⟨rfl, rfl⟩ | ⟨m, hm, rfl⟩
    · simp [TreeNodeData.fresh]
    · split
      · simp
      · exact h.colours hm
  · intro u m' hu hgolden
    rcases MctsTree.getElem?_of_dye hlt hu with ⟨rfl, rfl⟩ | ⟨m, hm, rfl⟩
    · exact ⟨rfl, rfl, v, _, rfl, hself, rfl, rfl, rfl⟩
    · split at hgolden
      · cases hgolden
      · rename_i hne
        rw [if_neg hne]
        obtain ⟨hleaf, h999, w, k, hw, hk, hwhite, hsim, hpath⟩ := h.golden hm hgolden
        have hwv : v ≠ w := MctsTree.ne_of_colour_ne hv hk (by simp [hblack, hwhite])
        exact ⟨hleaf, h999, w, k, hw, MctsTree.getElem?_dye_ne hk hwv _, hwhite, hsim, hpath⟩
  · intro u m' hu hwhite
    rcases MctsTree.getElem?_of_dye hlt hu with ⟨rfl, rfl⟩ | ⟨m, hm, rfl⟩
    · cases hwhite
    · split
      · rename_i heq
        subst heq
        exact ⟨_, _, rfl, MctsTree.getElem?_dye_new hlt _, rfl, rfl⟩
      · rename_i hne
        rw [if_neg hne] at hwhite
        obtain ⟨s, k, hs, hk, hp, hgolden⟩ := h.simulation hm hwhite
        have hsv : v ≠ s := MctsTree.ne_of_colour_ne hv hk (by simp [hblack, hgolden])
        exact ⟨s, k, hs, MctsTree.getElem?_dye_ne hk hsv _, hp, hgolden⟩
  · intro u m' hu hresponse hne
    rcases MctsTree.getElem?_of_dye hlt hu with ⟨rfl, rfl⟩ | ⟨m, hm, rfl⟩
    · exact absurd rfl hresponse
    · have hcolour : m.data.colour ≠ .Golden := by
        by_cases hvu : v = u
        · subst hvu
          rw [hv] at hm
          cases hm
          simp [hblack]
        · rw [if_neg hvu] at hresponse
          exact hresponse
      obtain ⟨h999, w, k, hw, hk, hpath⟩ := h.response hm hcolour hne
      obtain ⟨k', hk', hpath'⟩ := MctsTree.exists_dye_path v hk n.data.path
      split
      · exact ⟨h999, w, k', hw, hk', by rw [hpath', ← hpath]⟩
      · exact ⟨h999, w, k', hw, hk', by rw [hpath', ← hpath]⟩
  · intro u w m' k' hu hw hparent hid
    rcases MctsTree.identity_of_dye hlt hu with ⟨rfl, hp, h999⟩ | ⟨m, hm, hp, hid'⟩ <;>
      rcases MctsTree.identity_of_dye hlt hw with ⟨rfl, hq, h999'⟩ | ⟨k, hk, hq, hid''⟩
    · rfl
    · have hfresh := h.ne_999_of_black hv hblack hk (hq.symm.trans (hparent.symm.trans hp))
      exact absurd (hid''.symm.trans (hid.symm.trans h999)) hfresh
    · have hfresh := h.ne_999_of_black hv hblack hm (hp.symm.trans (hparent.trans hq))
      exact absurd (hid'.symm.trans (hid.trans h999')) hfresh
    · exact h.distinct hm hk (by rw [← hp, ← hq, hparent]) (by rw [← hid', ← hid'', hid])

end Shape

end aflnet.mcts
