import AflnetLegion.Mcts.Expand

open Checked

namespace aflnet.mcts

/-- The statistics of a node, together with what they are about: its path, and whether it is a
SimNode. -/
structure Counts where
  path : List UInt32
  golden : Bool
  selected : UInt32
  discovered : UInt32

/-- The statistics of a node, with what they are about. -/
def TreeNodeData.counts (d : TreeNodeData) : Counts :=
  { path := d.path, golden := d.colour = .Golden, selected := d.selected, discovered := d.discovered }

theorem TreeNodeData.path_of_counts {d d' : TreeNodeData} (h : d'.counts = d.counts) : d'.path = d.path :=
  congrArg Counts.path h

theorem TreeNodeData.selected_of_counts {d d' : TreeNodeData} (h : d'.counts = d.counts) : d'.selected = d.selected :=
  congrArg Counts.selected h

theorem TreeNodeData.discovered_of_counts {d d' : TreeNodeData} (h : d'.counts = d.counts) :
    d'.discovered = d.discovered := congrArg Counts.discovered h

theorem TreeNodeData.golden_iff_of_counts {d d' : TreeNodeData} (h : d'.counts = d.counts) :
    d'.colour = .Golden ↔ d.colour = .Golden := by
  have hgolden := congrArg Counts.golden h
  simpa [counts] using hgolden

/-- `t'` has the nodes of `t` with their statistics, and further nodes that have none
yet. New children come last. -/
structure MctsTree.Extends (t t' : MctsTree) : Prop where
  length_le : t.nodes.length ≤ t'.nodes.length
  old : ∀ {v : NodeId} {n : GNode}, t.nodes[v]? = some n → ∃ n' added, t'.nodes[v]? = some n' ∧
    n'.data.counts = n.data.counts ∧ n'.children = n.children ++ added ∧ ∀ c ∈ added, t.nodes.length ≤ c
  new : ∀ {v : NodeId} {n' : GNode}, t.nodes.length ≤ v → t'.nodes[v]? = some n' →
    n'.data.selected = 0 ∧ n'.data.discovered = 0

namespace MctsTree.Extends

variable {t t' t'' : MctsTree} {v : NodeId}

theorem refl (t : MctsTree) : Extends t t where
  length_le := Nat.le_refl _
  old := fun {_ n} hn => ⟨n, [], hn, rfl, (List.append_nil _).symm, fun _ hc => by cases hc⟩
  new := fun hge hn => absurd (lt_of_getElem? hn) (Nat.not_lt.mpr hge)

/-- Extensions compose, which is how a run extends the tree it began with. -/
theorem trans (h : Extends t t') (h' : Extends t' t'') : Extends t t'' where
  length_le := Nat.le_trans h.length_le h'.length_le
  old := by
    intro v n hn
    obtain ⟨n', added, hn', hcounts, hchildren, hadded⟩ := h.old hn
    obtain ⟨n'', added', hn'', hcounts', hchildren', hadded'⟩ := h'.old hn'
    refine ⟨n'', added ++ added', hn'', hcounts'.trans hcounts, by rw [hchildren', hchildren, List.append_assoc], ?_⟩
    intro c hc
    rcases List.mem_append.mp hc with hc | hc
    · exact hadded c hc
    · exact Nat.le_trans h.length_le (hadded' c hc)
  new := by
    intro v n'' hge hn''
    by_cases hlt : v < t'.nodes.length
    · obtain ⟨n', hn'⟩ := getElem?_of_lt hlt
      obtain ⟨m, _, hm, hcounts, _⟩ := h'.old hn'
      rw [hn''] at hm
      cases hm
      obtain ⟨hselected, hdiscovered⟩ := h.new hge hn'
      exact ⟨(TreeNodeData.selected_of_counts hcounts).trans hselected, (TreeNodeData.discovered_of_counts hcounts).trans hdiscovered⟩
    · exact h'.new (Nat.not_lt.mp hlt) hn''

/-- An assignment to other fields. -/
theorem modify {f : TreeNodeData → TreeNodeData}
    (hf : ∀ n, t.nodes[v]? = some n → (f n.data).counts = n.data.counts) : Extends t (t.modify v f) where
  length_le := Nat.le_of_eq (length_modify t v f).symm
  old := by
    intro u n hn
    by_cases hvu : v = u
    · subst hvu
      exact ⟨_, [], getElem?_modify_self hn f, hf n hn, (List.append_nil _).symm, fun _ hc => by cases hc⟩
    · exact ⟨n, [], by rw [getElem?_modify_ne t hvu, hn], rfl, (List.append_nil _).symm, fun _ hc => by cases hc⟩
  new := by
    intro u n' hge hn'
    have hlt := lt_of_getElem? hn'
    rw [length_modify] at hlt
    exact absurd hlt (Nat.not_lt.mpr hge)

theorem add (t : MctsTree) (v : NodeId) {d : TreeNodeData} (hselected : d.selected = 0) (hdiscovered : d.discovered = 0) :
    Extends t (t.add v d) where
  length_le := by
    rw [length_add]
    exact Nat.le_succ _
  old := by
    intro u n hn
    by_cases hvu : v = u
    · subst hvu
      refine ⟨_, [t.nodes.length], getElem?_add_parent d hn, rfl, rfl, fun c hc => ?_⟩
      exact Nat.le_of_eq (List.mem_singleton.mp hc).symm
    · exact ⟨n, [], getElem?_add_ne d hn hvu, rfl, (List.append_nil _).symm, fun _ hc => by cases hc⟩
  new := by
    intro u n' hge hn'
    rcases getElem?_of_add hn' with ⟨rfl, rfl⟩ | ⟨_, _, hlt, _⟩
    · exact ⟨hselected, hdiscovered⟩
    · exact absurd hlt (Nat.not_lt.mpr hge)

/-- Only a node that is no SimNode is turned White. -/
theorem dye {n : GNode} (hv : t.nodes[v]? = some n) (hresponse : n.data.colour ≠ .Golden) (path : List UInt32) :
    Extends t (t.dye v path) := by
  rw [MctsTree.dye]
  refine (add t v rfl rfl).trans (modify fun m hm => ?_)
  rw [getElem?_add_parent _ hv] at hm
  cases hm
  simp [TreeNodeData.counts, hresponse]

/-- So does a new node for a response code, with its SimNode if it is White. -/
theorem append (t : MctsTree) (v : NodeId) (code : UInt32) (white : Bool) (path : List UInt32) :
    Extends t (t.append v code white path) := by
  have hadd : Extends t (t.add v (.fresh code .Black path)) := add t v rfl rfl
  cases white with
  | false => exact hadd
  | true => exact hadd.trans (dye (getElem?_add_new t v _) (fun hfalse => by cases hfalse) path)

theorem seed (t : MctsTree) (v : NodeId) (q : queue_entry) (region_index : Nat) :
    Extends t (t.seed v q region_index) := by
  rw [MctsTree.seed]
  split
  · exact modify fun _ _ => rfl
  · exact refl t

theorem unmark (t : MctsTree) (v : NodeId) (path_index len_codes : Nat) :
    Extends t (t.unmark v path_index len_codes) := by
  rw [MctsTree.unmark]
  split
  · exact modify fun _ _ => rfl
  · exact refl t

theorem dye_and_seed (t : MctsTree) (v : NodeId) (q : queue_entry) (response_codes : List UInt32) (path_index : Nat)
    (regions : RegionMatch) : Extends t (t.dye_and_seed v q response_codes path_index regions) := by
  rw [MctsTree.dye_and_seed]
  split
  · have hflip : Extends t (t.flip v response_codes path_index) := by
      rw [MctsTree.flip]
      split
      · rename_i hblack
        obtain ⟨n, hn, hcolour⟩ := Option.map_eq_some_iff.mp hblack.1
        exact dye hn (by rw [hcolour]; exact fun hfalse => by cases hfalse) _
      · exact refl t
    refine hflip.trans ?_
    rw [MctsTree.seed_matched]
    split
    · exact seed _ v q _
    · exact refl _
  · exact refl t

/-- One iteration of the second round. -/
theorem visit (q : queue_entry) (response_codes : List UInt32) (path_index : Nat) (code : UInt32) (s : Walk) :
    Extends s.tree (mcts.visit q response_codes path_index code s).tree := by
  refine (unmark s.tree s.tree_node path_index response_codes.length).trans ?_
  refine Extends.trans ?_ (dye_and_seed _ _ q response_codes path_index _)
  split
  · exact append _ _ _ _ _
  · exact refl _

/-- The whole second round adds nodes and leaves the statistics of the old ones alone. -/
theorem visit_all (q : queue_entry) (response_codes : List UInt32) (path_index : Nat) (codes : List UInt32) (s : Walk) :
    Extends s.tree (mcts.visit_all q response_codes path_index codes s).tree := by
  induction codes generalizing path_index s with
  | nil => exact refl _
  | cons code codes ih => exact (visit q response_codes path_index code s).trans (ih _ _)

/-- Both rounds of `Expansion` leave the statistics alone. -/
theorem walk (t : MctsTree) (q : queue_entry) (response_codes : List UInt32) :
    Extends t (t.walk q response_codes).tree :=
  (seed t ROOT q 0).trans (visit_all q response_codes 1 response_codes.tail (Walk.start (t.seed ROOT q 0) ROOT))

end MctsTree.Extends

end aflnet.mcts
