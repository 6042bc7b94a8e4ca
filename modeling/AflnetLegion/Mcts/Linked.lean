import AflnetLegion.Mcts.Memory

open Checked

namespace aflnet.mcts

/-- The pointers of the tree are coherent: the root is White, every other node
hangs below an older node that lists it, siblings are listed once, and a White
node has its SimNode. Ids, paths and the Golden id play no role. -/
structure Linked (t : MctsTree) : Prop where
  root : ∃ r, t.nodes[ROOT]? = some r ∧ r.parent = none ∧ r.data.colour = .White
  parent : ∀ {v : NodeId} {n : GNode}, t.nodes[v]? = some n → v ≠ ROOT →
    ∃ u m, n.parent = some u ∧ u < v ∧ t.nodes[u]? = some m ∧ v ∈ m.children
  child : ∀ {v c : NodeId} {n : GNode}, t.nodes[v]? = some n → c ∈ n.children →
    ∃ m, t.nodes[c]? = some m ∧ m.parent = some v
  nodup : ∀ {v : NodeId} {n : GNode}, t.nodes[v]? = some n → n.children.Nodup
  sim : ∀ {v : NodeId} {n : GNode}, t.nodes[v]? = some n → n.data.colour = .White →
    ∃ s m, n.data.simulation_child = some s ∧ t.nodes[s]? = some m ∧ m.data.colour = .Golden

/-- Nodes of different colours are different. -/
theorem MctsTree.ne_of_colour_ne {t : MctsTree} {v u : NodeId} {n m : GNode} (hv : t.nodes[v]? = some n)
    (hu : t.nodes[u]? = some m) (hne : n.data.colour ≠ m.data.colour) : v ≠ u := by
  rintro rfl
  rw [hv] at hu
  cases hu
  exact hne rfl

namespace Linked

variable {t : MctsTree}

/-- The root is the only node without a parent. -/
theorem eq_root_of_parent_eq_none (h : Linked t) {v : NodeId} {n : GNode} (hv : t.nodes[v]? = some n)
    (hparent : n.parent = none) : v = ROOT := by
  by_contra hne
  obtain ⟨u, m, hu, _⟩ := h.parent hv hne
  rw [hparent] at hu
  cases hu

theorem ne_root_of_black (h : Linked t) {v : NodeId} {n : GNode} (hv : t.nodes[v]? = some n)
    (hblack : n.data.colour = .Black) : v ≠ ROOT := by
  obtain ⟨r, hr, _, hwhite⟩ := h.root
  apply MctsTree.ne_of_colour_ne hv hr
  simp [hblack, hwhite]

theorem ne_root_of_parent (h : Linked t) {v u : NodeId} {n : GNode} (hv : t.nodes[v]? = some n)
    (hparent : n.parent = some u) : v ≠ ROOT := by
  rintro rfl
  obtain ⟨r, hr, hnone, _⟩ := h.root
  rw [hv] at hr
  cases hr
  rw [hparent] at hnone
  cases hnone

/-- The parent pointer of a node leads to an older node that lists it. -/
theorem exists_parent (h : Linked t) {v u : NodeId} {n : GNode} (hv : t.nodes[v]? = some n)
    (hparent : n.parent = some u) : ∃ m, t.nodes[u]? = some m ∧ u < v ∧ v ∈ m.children := by
  obtain ⟨u', m, hu, hlt, hm, hmem⟩ := h.parent hv (h.ne_root_of_parent hv hparent)
  rw [hparent] at hu
  cases hu
  exact ⟨m, hm, hlt, hmem⟩

theorem mem_children_of_parent (h : Linked t) {v u : NodeId} {n m : GNode} (hv : t.nodes[v]? = some n)
    (hparent : n.parent = some u) (hu : t.nodes[u]? = some m) : v ∈ m.children := by
  obtain ⟨m', hm', _, hmem⟩ := h.exists_parent hv hparent
  rw [hu] at hm'
  cases hm'
  exact hmem

/-- A child is younger than its parent. -/
theorem parent_lt_child (h : Linked t) {v c : NodeId} {n : GNode} (hv : t.nodes[v]? = some n)
    (hc : c ∈ n.children) : v < c := by
  obtain ⟨m, hm, hparent⟩ := h.child hv hc
  obtain ⟨_, _, hlt, _⟩ := h.exists_parent hm hparent
  exact hlt

/-- Coherence depends on the links only. -/
theorem of_links {t' : MctsTree} (h : Linked t) (hsame : MctsTree.SameBy GNode.links t t') : Linked t' := by
  constructor
  · obtain ⟨r, hr, hp, hc⟩ := h.root
    obtain ⟨r', hr', hlinks⟩ := hsame.exists_node hr
    exact ⟨r', hr', (GNode.parent_of_links hlinks).trans hp, (GNode.colour_of_links hlinks).trans hc⟩
  · intro v n' hv hne
    obtain ⟨n, hn, hlinks⟩ := hsame.symm.exists_node hv
    obtain ⟨u, m, hu, hlt, hm, hmem⟩ := h.parent hn hne
    obtain ⟨m', hm', hlinks'⟩ := hsame.exists_node hm
    refine ⟨u, m', (GNode.parent_of_links hlinks).symm.trans hu, hlt, hm', ?_⟩
    rw [GNode.children_of_links hlinks']
    exact hmem
  · intro v c n' hv hc
    obtain ⟨n, hn, hlinks⟩ := hsame.symm.exists_node hv
    rw [← GNode.children_of_links hlinks] at hc
    obtain ⟨m, hm, hp⟩ := h.child hn hc
    obtain ⟨m', hm', hlinks'⟩ := hsame.exists_node hm
    exact ⟨m', hm', (GNode.parent_of_links hlinks').trans hp⟩
  · intro v n' hv
    obtain ⟨n, hn, hlinks⟩ := hsame.symm.exists_node hv
    rw [← GNode.children_of_links hlinks]
    exact h.nodup hn
  · intro v n' hv hw
    obtain ⟨n, hn, hlinks⟩ := hsame.symm.exists_node hv
    obtain ⟨s, m, hs, hm, hg⟩ := h.sim hn ((GNode.colour_of_links hlinks).trans hw)
    obtain ⟨m', hm', hlinks'⟩ := hsame.exists_node hm
    exact ⟨s, m', (congrArg Links.simulation_child hlinks).symm.trans hs, hm',
      (GNode.colour_of_links hlinks').trans hg⟩

/-- An assignment that keeps the colour and the simulation child of a node. -/
theorem modify (h : Linked t) {v : NodeId} {n : GNode} {f : TreeNodeData → TreeNodeData}
    (hv : t.nodes[v]? = some n) (hcolour : (f n.data).colour = n.data.colour)
    (hsim : (f n.data).simulation_child = n.data.simulation_child) : Linked (t.modify v f) := by
  apply h.of_links
  apply MctsTree.SameBy.modify hv
  simp only [GNode.links, hcolour, hsim]

/-- Turning a node that is no SimNode White, with an existing Golden node as
simulation child. -/
theorem set_sim (h : Linked t) {v s : NodeId} {n m : GNode} {f : TreeNodeData → TreeNodeData}
    (hv : t.nodes[v]? = some n) (hcolour : n.data.colour ≠ .Golden) (hs : t.nodes[s]? = some m)
    (hgolden : m.data.colour = .Golden) (hf : (f n.data).colour = .White)
    (hsim : (f n.data).simulation_child = some s) : Linked (t.modify v f) := by
  have hgold : ∀ {u : NodeId} {k : GNode}, t.nodes[u]? = some k → k.data.colour = .Golden →
      (t.modify v f).nodes[u]? = some k := by
    intro u k hu hk
    have hne : v ≠ u := by
      rintro rfl
      rw [hv] at hu
      cases hu
      exact hcolour hk
    rw [MctsTree.getElem?_modify_ne t hne, hu]
  have hold : ∀ {u : NodeId} {k : GNode}, t.nodes[u]? = some k → ∃ k', (t.modify v f).nodes[u]? = some k' ∧
      k'.parent = k.parent ∧ k'.children = k.children := by
    intro u k hu
    refine ⟨_, by rw [MctsTree.getElem?_modify, hu]; rfl, ?_⟩
    by_cases hvu : v = u <;> simp [hvu]
  constructor
  · obtain ⟨r, hr, hp, hc⟩ := h.root
    by_cases hvr : v = ROOT
    · subst hvr
      rw [hv] at hr
      cases hr
      exact ⟨_, MctsTree.getElem?_modify_self hv f, hp, hf⟩
    · exact ⟨r, by rw [MctsTree.getElem?_modify_ne t hvr, hr], hp, hc⟩
  · intro u k' hu hne
    obtain ⟨k, hk, hp, _⟩ := MctsTree.getElem?_of_modify hu
    obtain ⟨w, l, hw, hlt, hl, hmem⟩ := h.parent hk hne
    obtain ⟨l', hl', _, hch⟩ := hold hl
    exact ⟨w, l', by rw [hp, hw], hlt, hl', by rw [hch]; exact hmem⟩
  · intro u c k' hu hc
    obtain ⟨k, hk, _, hch, _⟩ := MctsTree.getElem?_of_modify hu
    obtain ⟨l, hl, hlp⟩ := h.child hk (by rw [← hch]; exact hc)
    obtain ⟨l', hl', hlp', _⟩ := hold hl
    exact ⟨l', hl', by rw [hlp', hlp]⟩
  · intro u k' hu
    obtain ⟨k, hk, _, hch, _⟩ := MctsTree.getElem?_of_modify hu
    rw [hch]
    exact h.nodup hk
  · intro u k' hu hw
    obtain ⟨k, hk, _, _, hd⟩ := MctsTree.getElem?_of_modify hu
    by_cases hvu : v = u
    · subst hvu
      rw [hv] at hk
      cases hk
      rw [if_pos rfl] at hd
      exact ⟨s, m, by rw [hd, hsim], hgold hs hgolden, hgolden⟩
    · rw [if_neg hvu] at hd
      obtain ⟨s', m', hs', hm', hg'⟩ := h.sim hk (by rw [← hd]; exact hw)
      exact ⟨s', m', by rw [hd, hs'], hgold hm' hg', hg'⟩

/-- Appending a node that needs no SimNode. -/
theorem add (h : Linked t) {v : NodeId} {n : GNode} {d : TreeNodeData} (hv : t.nodes[v]? = some n)
    (hd : d.colour ≠ .White) : Linked (t.add v d) := by
  have hvlt : v < t.nodes.length := (List.getElem?_eq_some_iff.mp hv).1
  have hold : ∀ {u : NodeId} {m : GNode}, t.nodes[u]? = some m → ∃ m', (t.add v d).nodes[u]? = some m' ∧
      m'.data = m.data ∧ m'.parent = m.parent ∧ ∀ c ∈ m.children, c ∈ m'.children := by
    intro u m hu
    by_cases hvu : v = u
    · subst hvu
      exact ⟨_, MctsTree.getElem?_add_parent d hu, rfl, rfl, fun c hc => List.mem_append_left _ hc⟩
    · exact ⟨m, MctsTree.getElem?_add_ne d hu hvu, rfl, rfl, fun c hc => hc⟩
  constructor
  · obtain ⟨r, hr, hp, hc⟩ := h.root
    obtain ⟨r', hr', hd', hp', _⟩ := hold hr
    exact ⟨r', hr', by rw [hp', hp], by rw [hd', hc]⟩
  · intro u m' hu hne
    rcases MctsTree.getElem?_of_add hu with ⟨rfl, rfl⟩ | ⟨m, hm, hlt, _, hp, _⟩
    · exact ⟨v, _, rfl, hvlt, MctsTree.getElem?_add_parent d hv, by simp⟩
    · obtain ⟨w, k, hw, hlt', hk, hmem⟩ := h.parent hm hne
      obtain ⟨k', hk', _, _, hch⟩ := hold hk
      exact ⟨w, k', by rw [hp, hw], hlt', hk', hch u hmem⟩
  · intro u c m' hu hc
    rcases MctsTree.getElem?_of_add hu with ⟨rfl, rfl⟩ | ⟨m, hm, hlt, _, _, hch⟩
    · simp at hc
    · by_cases hvu : v = u
      · subst hvu
        rw [hch, if_pos rfl] at hc
        rcases List.mem_append.mp hc with hc | hc
        · obtain ⟨k, hk, hkp⟩ := h.child hm hc
          obtain ⟨k', hk', _, hkp', _⟩ := hold hk
          exact ⟨k', hk', by rw [hkp', hkp]⟩
        · rw [List.mem_singleton.mp hc]
          exact ⟨_, MctsTree.getElem?_add_new t v d, rfl⟩
      · rw [hch, if_neg hvu] at hc
        obtain ⟨k, hk, hkp⟩ := h.child hm hc
        obtain ⟨k', hk', _, hkp', _⟩ := hold hk
        exact ⟨k', hk', by rw [hkp', hkp]⟩
  · intro u m' hu
    rcases MctsTree.getElem?_of_add hu with ⟨rfl, rfl⟩ | ⟨m, hm, hlt, _, _, hch⟩
    · simp
    · rw [hch]
      split
      · rw [List.nodup_append]
        refine ⟨h.nodup hm, by simp, ?_⟩
        intro c hc c' hc' heq
        obtain ⟨k, hk, _⟩ := h.child hm hc
        have hclt : c < t.nodes.length := (List.getElem?_eq_some_iff.mp hk).1
        rw [List.mem_singleton] at hc'
        subst hc'
        exact Nat.ne_of_lt hclt heq
      · exact h.nodup hm
  · intro u m' hu hw
    rcases MctsTree.getElem?_of_add hu with ⟨rfl, rfl⟩ | ⟨m, hm, hlt, hdata, _, _⟩
    · exact absurd hw hd
    · obtain ⟨s, k, hs, hk, hg⟩ := h.sim hm (by rw [← hdata]; exact hw)
      obtain ⟨k', hk', hkd, _⟩ := hold hk
      exact ⟨s, k', by rw [hdata, hs], hk', by rw [hkd, hg]⟩

end Linked

end aflnet.mcts
