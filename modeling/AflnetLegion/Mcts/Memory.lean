import AflnetLegion.Mcts.TreeNode

open Checked

namespace aflnet.mcts

/-- The nodes after an assignment to the data of one node: links stay, and the data of the
others too. -/
theorem MctsTree.getElem?_modify (t : MctsTree) (v u : NodeId) (f : TreeNodeData → TreeNodeData) :
    (t.modify v f).nodes[u]? = t.nodes[u]?.map fun n => if v = u then { n with data := f n.data } else n := by
  rw [MctsTree.modify, List.getElem?_modify]
  cases t.nodes[u]? <;> simp

@[simp] theorem MctsTree.length_modify (t : MctsTree) (v : NodeId) (f : TreeNodeData → TreeNodeData) :
    (t.modify v f).nodes.length = t.nodes.length := by
  simp [MctsTree.modify]

theorem MctsTree.getElem?_modify_self {t : MctsTree} {v : NodeId} {n : GNode} (h : t.nodes[v]? = some n)
    (f : TreeNodeData → TreeNodeData) : (t.modify v f).nodes[v]? = some { n with data := f n.data } := by
  simp [MctsTree.getElem?_modify, h]

theorem MctsTree.getElem?_modify_ne (t : MctsTree) {v u : NodeId} (h : v ≠ u) (f : TreeNodeData → TreeNodeData) :
    (t.modify v f).nodes[u]? = t.nodes[u]? := by
  simp [MctsTree.getElem?_modify, h]

/-- A change of data leaves the pointers between nodes alone. -/
theorem MctsTree.getElem?_of_modify {t : MctsTree} {v u : NodeId} {f : TreeNodeData → TreeNodeData} {n : GNode}
    (h : (t.modify v f).nodes[u]? = some n) :
    ∃ old, t.nodes[u]? = some old ∧ n.parent = old.parent ∧ n.children = old.children ∧
      n.data = if v = u then f old.data else old.data := by
  rw [MctsTree.getElem?_modify] at h
  obtain ⟨old, hold, rfl⟩ := Option.map_eq_some_iff.mp h
  refine ⟨old, hold, ?_⟩
  by_cases hv : v = u <;> simp [hv]

/-- Two memories are equal if they have the same node at every address. -/
theorem MctsTree.ext_nodes {t t' : MctsTree} (h : ∀ u : Nat, t.nodes[u]? = t'.nodes[u]?) : t = t' := by
  have hnodes : t.nodes = t'.nodes := List.ext_getElem? h
  cases t
  cases t'
  simpa using hnodes

/-- An assignment of the value a node already holds changes nothing. -/
theorem MctsTree.modify_eq_self {t : MctsTree} {v : NodeId} {n : GNode} {f : TreeNodeData → TreeNodeData}
    (h : t.nodes[v]? = some n) (hf : f n.data = n.data) : t.modify v f = t := by
  apply MctsTree.ext_nodes
  intro u
  by_cases hu : v = u
  · subst hu
    rw [MctsTree.getElem?_modify_self h, hf, h]
  · rw [MctsTree.getElem?_modify_ne t hu]

@[simp] theorem MctsTree.length_add (t : MctsTree) (v : NodeId) (d : TreeNodeData) :
    (t.add v d).nodes.length = t.nodes.length + 1 := by
  simp [MctsTree.add]

@[simp] theorem MctsTree.getElem?_add_new (t : MctsTree) (v : NodeId) (d : TreeNodeData) :
    (t.add v d).nodes[t.nodes.length]? = some { data := d, parent := some v, children := [] } := by
  simp [MctsTree.add]

theorem MctsTree.getElem?_add_old (t : MctsTree) {v u : NodeId} (d : TreeNodeData) (h : u < t.nodes.length) :
    (t.add v d).nodes[u]? =
      t.nodes[u]?.map fun n => if v = u then { n with children := n.children ++ [t.nodes.length] } else n := by
  rw [MctsTree.add, List.getElem?_append_left (by simpa using h), List.getElem?_modify]
  cases t.nodes[u]? <;> simp

theorem MctsTree.getElem?_add_parent {t : MctsTree} {v : NodeId} {n : GNode} (d : TreeNodeData)
    (h : t.nodes[v]? = some n) :
    (t.add v d).nodes[v]? = some { n with children := n.children ++ [t.nodes.length] } := by
  have hlt : v < t.nodes.length := (List.getElem?_eq_some_iff.mp h).1
  simp [t.getElem?_add_old d hlt, h]

theorem MctsTree.getElem?_add_ne {t : MctsTree} {v u : NodeId} {n : GNode} (d : TreeNodeData)
    (h : t.nodes[u]? = some n) (hne : v ≠ u) : (t.add v d).nodes[u]? = some n := by
  have hlt : u < t.nodes.length := (List.getElem?_eq_some_iff.mp h).1
  simp [t.getElem?_add_old d hlt, h, hne]

/-- Every node after an append is the new one or an old one, which has gained the
new one as last child if it is the parent. -/
theorem MctsTree.getElem?_of_add {t : MctsTree} {v u : NodeId} {d : TreeNodeData} {n : GNode}
    (h : (t.add v d).nodes[u]? = some n) :
    (u = t.nodes.length ∧ n = { data := d, parent := some v, children := [] }) ∨
      ∃ old, t.nodes[u]? = some old ∧ u < t.nodes.length ∧ n.data = old.data ∧ n.parent = old.parent ∧
        n.children = if v = u then old.children ++ [t.nodes.length] else old.children := by
  have hbound : u < t.nodes.length + 1 := by
    have hlt := (List.getElem?_eq_some_iff.mp h).1
    simpa using hlt
  rcases Nat.lt_succ_iff_lt_or_eq.mp hbound with hlt | rfl
  · right
    rw [t.getElem?_add_old d hlt] at h
    obtain ⟨old, hold, rfl⟩ := Option.map_eq_some_iff.mp h
    refine ⟨old, hold, hlt, ?_⟩
    by_cases hv : v = u <;> simp [hv]
  · left
    rw [MctsTree.getElem?_add_new] at h
    exact ⟨rfl, (Option.some.inj h).symm⟩

/-- Initialising a node just appended is the same as appending it initialised. -/
theorem MctsTree.add_modify_new (t : MctsTree) (v : NodeId) (d : TreeNodeData) (f : TreeNodeData → TreeNodeData) :
    (t.add v d).modify t.nodes.length f = t.add v (f d) := by
  apply MctsTree.ext_nodes
  intro u
  rw [MctsTree.getElem?_modify]
  rcases Nat.lt_trichotomy u t.nodes.length with hlt | rfl | hgt
  · rw [t.getElem?_add_old d hlt, t.getElem?_add_old (f d) hlt]
    have hne : t.nodes.length ≠ u := by omega
    cases t.nodes[u]? <;> simp [hne]
  · rw [MctsTree.getElem?_add_new, MctsTree.getElem?_add_new]
    simp
  · rw [List.getElem?_eq_none (by simp; omega), List.getElem?_eq_none (by simp; omega)]
    rfl

@[simp] theorem MctsTree.modify_modify (t : MctsTree) (v : NodeId) (f g : TreeNodeData → TreeNodeData) :
    (t.modify v f).modify v g = t.modify v (g ∘ f) := by
  simp only [MctsTree.modify, List.modify_modify_eq]
  rfl

/-- An assignment to an existing node and an append do not interfere. -/
theorem MctsTree.modify_add {t : MctsTree} {v : NodeId} (hv : v < t.nodes.length) (u : NodeId)
    (f : TreeNodeData → TreeNodeData) (d : TreeNodeData) : (t.modify v f).add u d = (t.add u d).modify v f := by
  apply MctsTree.ext_nodes
  intro w
  rw [MctsTree.getElem?_modify]
  rcases Nat.lt_trichotomy w t.nodes.length with hlt | rfl | hgt
  · rw [MctsTree.getElem?_add_old _ d (by simpa using hlt), t.getElem?_add_old d hlt, MctsTree.getElem?_modify]
    cases t.nodes[w]? with
    | none => rfl
    | some n => by_cases hu : u = w <;> by_cases hvw : v = w <;> simp [hu, hvw]
  · have hnew := MctsTree.getElem?_add_new (t.modify v f) u d
    rw [MctsTree.length_modify] at hnew
    rw [hnew, MctsTree.getElem?_add_new, Option.map_some, if_neg (Nat.ne_of_lt hv)]
  · rw [List.getElem?_eq_none (by simp; omega), List.getElem?_eq_none (by simp; omega)]
    rfl

/-- Two memories agree on one aspect of every node, and hold the same nodes. -/
def MctsTree.SameBy {α : Type} (aspect : GNode → α) (t t' : MctsTree) : Prop :=
  ∀ v : Nat, t'.nodes[v]?.map aspect = t.nodes[v]?.map aspect

namespace MctsTree.SameBy

variable {α : Type} {aspect : GNode → α} {t t' t'' : MctsTree}

theorem refl (t : MctsTree) : SameBy aspect t t := fun _ => rfl

theorem symm (h : SameBy aspect t t') : SameBy aspect t' t := fun v => (h v).symm

theorem trans (h : SameBy aspect t t') (h' : SameBy aspect t' t'') : SameBy aspect t t'' :=
  fun v => (h' v).trans (h v)

/-- A node of one memory has a counterpart with the same aspect in the other one. -/
theorem exists_node (h : SameBy aspect t t') {v : NodeId} {n : GNode} (hv : t.nodes[v]? = some n) :
    ∃ n', t'.nodes[v]? = some n' ∧ aspect n' = aspect n := by
  have hsame := h v
  rw [hv] at hsame
  exact Option.map_eq_some_iff.mp hsame

/-- A coarser aspect. -/
theorem map {β : Type} (h : SameBy aspect t t') (g : α → β) : SameBy (g ∘ aspect) t t' := by
  intro v
  rw [← Option.map_map, h v, Option.map_map]

/-- An assignment that keeps the aspect of the node it changes keeps it everywhere. -/
theorem modify {v : NodeId} {n : GNode} (hv : t.nodes[v]? = some n) {f : TreeNodeData → TreeNodeData}
    (h : aspect { n with data := f n.data } = aspect n) : SameBy aspect t (t.modify v f) := by
  intro u
  by_cases hvu : v = u
  · subst hvu
    rw [MctsTree.getElem?_modify_self hv, hv, Option.map_some, Option.map_some, h]
  · rw [MctsTree.getElem?_modify_ne t hvu]

end MctsTree.SameBy

/-- What the pointers of a node and its colour say. Most facts about the structure of the tree
depend on nothing else. -/
structure Links where
  parent : Option NodeId
  children : List NodeId
  colour : node_colour
  simulation_child : Option NodeId

def GNode.links (n : GNode) : Links :=
  { parent := n.parent, children := n.children, colour := n.data.colour,
    simulation_child := n.data.simulation_child }

section links

variable {n m : GNode} (h : n.links = m.links)

include h

theorem GNode.parent_of_links : n.parent = m.parent := congrArg Links.parent h

theorem GNode.children_of_links : n.children = m.children := congrArg Links.children h

theorem GNode.colour_of_links : n.data.colour = m.data.colour := congrArg Links.colour h

end links

/-- A node without its counters and flags. Selection and propagation leave it alone, so whatever
depends on skeletons only needs a proof for `Expansion` alone. -/
structure Skeleton where
  links : Links
  id : UInt32
  path : List UInt32
  seeds : List (queue_entry × Option Nat)
  region_indices : List Nat

def GNode.skeleton (n : GNode) : Skeleton :=
  { links := n.links, id := n.data.id, path := n.data.path,
    seeds := n.data.seeds.map fun seed => (seed.q, seed.parent_index), region_indices := n.data.region_indices }

theorem MctsTree.SameBy.links {t t' : MctsTree} (h : SameBy GNode.skeleton t t') : SameBy GNode.links t t' :=
  h.map Skeleton.links

/-- The node with the same links in the other tree. -/
theorem MctsTree.SameBy.exists_links {t t' : MctsTree} (h : SameBy GNode.links t t') {v : NodeId} {n : GNode}
    (hv : t.nodes[v]? = some n) : ∃ n', t'.nodes[v]? = some n' ∧ n'.children = n.children ∧
      n'.data.colour = n.data.colour ∧ n'.parent = n.parent := by
  obtain ⟨n', hv', hlinks⟩ := h.exists_node hv
  exact ⟨n', hv', GNode.children_of_links hlinks, GNode.colour_of_links hlinks, GNode.parent_of_links hlinks⟩

theorem deref_eq {t : MctsTree} {v : NodeId} {n : GNode} (h : t.nodes[v]? = some n) : deref t v = pure n := by
  simp only [deref, h]

theorem get_tree_node_data_eq {t : MctsTree} {v : NodeId} {n : GNode} (h : t.nodes[v]? = some n) :
    get_tree_node_data t v = pure n.data := by
  simp only [get_tree_node_data, deref_eq h, pure_bind]

/-- An assignment through a pointer to a node is a change of the memory and nothing else. -/
theorem set_tree_node_data_eq {t : MctsTree} {v : NodeId} {n : GNode} (h : t.nodes[v]? = some n)
    (f : TreeNodeData → TreeNodeData) : set_tree_node_data t v f = pure (t.modify v f) := by
  simp only [set_tree_node_data, deref_eq h, pure_bind]

theorem g_node_append_data_eq {t : MctsTree} {v : NodeId} {n : GNode} (h : t.nodes[v]? = some n)
    (d : TreeNodeData) : g_node_append_data t v d = pure (t.add v d, t.nodes.length) := by
  simp only [g_node_append_data, deref_eq h, pure_bind]

end aflnet.mcts
