import AflnetLegion.Mcts.Trie

open Checked

namespace aflnet.mcts

namespace Shape

variable {t : MctsTree} {v c : NodeId} {n : GNode}

/-- The simulation child of a White node is its only Golden child. -/
theorem golden_child_iff (h : Shape t) (hv : t.nodes[v]? = some n) (hwhite : n.data.colour = .White) :
    ∃ s ∈ n.children, n.data.simulation_child = some s ∧ ∀ c ∈ n.children, t.colour? c = some .Golden ↔ c = s := by
  obtain ⟨s, m, hsim, hs, hparent, hgolden⟩ := h.simulation hv hwhite
  refine ⟨s, h.mem_children_of_parent hs hparent hv, hsim, ?_⟩
  intro c hc
  constructor
  · intro hcolour
    obtain ⟨l, hl, hlparent⟩ := h.child hv hc
    rw [MctsTree.colour?_eq hl] at hcolour
    obtain ⟨_, _, w, k, hw, hk, _, hksim, _⟩ := h.golden hl (Option.some.inj hcolour)
    rw [hlparent] at hw
    cases hw
    rw [hv] at hk
    cases hk
    rw [hsim] at hksim
    exact (Option.some.inj hksim).symm
  · rintro rfl
    rw [MctsTree.colour?_eq hs, hgolden]

/-- A Golden node is the simulation child of a White one. -/
theorem golden_parent_white (h : Shape t) (hv : t.nodes[v]? = some n) (hc : c ∈ n.children)
    (hgolden : t.colour? c = some .Golden) : n.data.colour = .White := by
  obtain ⟨m, hm, hparent⟩ := h.child hv hc
  rw [MctsTree.colour?_eq hm] at hgolden
  obtain ⟨_, _, u, k, hu, hk, hwhite, _⟩ := h.golden hm (Option.some.inj hgolden)
  rw [hparent] at hu
  cases hu
  rw [hv] at hk
  cases hk
  exact hwhite

end Shape

/-- Colours and SimNodes fit together after every run of plain responses, and the
next `Expansion` never reads an unset simulation child nor fails an assertion of
`get_simulation_child`. -/
theorem Run.colours_and_sim_nodes {calls : List Call} {t : MctsTree}
    (hrun : Run (fun _ _ codes => Plain codes) calls t) :
    (∀ (v : NodeId) (n : GNode), t.nodes[v]? = some n →
      (n.data.colour = .White ∨ n.data.colour = .Golden ∨ n.data.colour = .Black) ∧
      (n.data.colour = .White → ∃ s ∈ n.children, n.data.simulation_child = some s ∧
        ∀ c ∈ n.children, t.colour? c = some .Golden ↔ c = s) ∧
      (n.data.colour = .Black → ∀ c ∈ n.children, t.colour? c ≠ some .Golden) ∧
      (n.data.colour = .Golden → n.children = [] ∧
        ∃ u m, n.parent = some u ∧ t.nodes[u]? = some m ∧ n.data.path = m.data.path)) ∧
    (∀ (q : queue_entry) (response_codes : List UInt32), 0 < q.region_count → Plain response_codes →
      Holds (fun site => site ≠ .sim_child_allowed ∧ site ≠ .sim_child_is_golden)
        (Expansion t ROOT q response_codes) (fun _ => True)) := by
  have hshape : Shape t := (hrun.shape_rule id (J := fun _ _ => True) trivial (fun _ _ _ _ => trivial)
    (fun _ _ => trivial)).1
  constructor
  · intro v n hv
    refine ⟨hshape.colours hv, hshape.golden_child_iff hv, ?_, ?_⟩
    · intro hblack c hc hgolden
      have hwhite := hshape.golden_parent_white hv hc hgolden
      rw [hblack] at hwhite
      cases hwhite
    · intro hgolden
      obtain ⟨hleaf, _, u, m, hu, hm, _, _, hpath⟩ := hshape.golden hv hgolden
      exact ⟨hleaf, u, m, hu, hm, hpath⟩
  · intro q response_codes hregions hcodes
    exact (hshape.expansion_holds hregions hcodes.long).holds.mono (fun _ hsite => ⟨hsite.1, hsite.2.1⟩) fun _ _ => trivial

/-- Expanding the tree once more by the same response fails none of the two assertions of
`get_simulation_child`. -/
theorem single_entry_can_be_repeated :
    Holds (fun site => site ≠ .sim_child_allowed ∧ site ≠ .sim_child_is_golden)
      (Expansion (MctsTree.initial.expand single_entry [0, 5]).1 ROOT single_entry [0, 5]) (fun _ => True) := by
  have hrun := (Run.initial : Run (fun _ _ codes => Plain codes) [] .initial).expand (q := single_entry)
    plain_single (by decide) (by decide)
  exact (Run.colours_and_sim_nodes hrun).2 single_entry [0, 5] (by decide) plain_single

end aflnet.mcts
