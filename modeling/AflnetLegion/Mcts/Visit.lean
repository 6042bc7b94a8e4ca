import AflnetLegion.Mcts.Expansion
import AflnetLegion.Mcts.Linked

open Checked

namespace aflnet.mcts

/-- The child `exists_child` finds. -/
def MctsTree.child_with_id (t : MctsTree) (v : NodeId) (code : UInt32) : Option NodeId :=
  t.nodes[v]?.bind fun n => n.children.find? fun c => t.nodes[c]?.any fun m => m.data.id = code

/-- The colour of a node, if it is there. -/
def MctsTree.colour? (t : MctsTree) (v : NodeId) : Option node_colour :=
  t.nodes[v]?.map fun n => n.data.colour

/-- The tree with `v` turned White and given a SimNode, which its data point to. -/
def MctsTree.dye (t : MctsTree) (v : NodeId) (path : List UInt32) : MctsTree :=
  (t.add v (.fresh 999 .Golden path)).modify v fun d =>
    { d with colour := .White, simulation_child := some t.nodes.length }

/-- The tree with a new child of `v` for a response code. A White one gets its SimNode at once.
-/
def MctsTree.append (t : MctsTree) (v : NodeId) (code : UInt32) (white : Bool) (path : List UInt32) : MctsTree :=
  if white then (t.add v (.fresh code .Black path)).dye t.nodes.length path
  else t.add v (.fresh code .Black path)

/-- The tree with a seed for `q` in the SimNode of `v`. Nothing happens if `v` has none, which
is a read of an unset pointer in the source. -/
def MctsTree.seed (t : MctsTree) (v : NodeId) (q : queue_entry) (region_index : Nat) : MctsTree :=
  match t.nodes[v]?.bind fun n => n.data.simulation_child with
  | some sim_child => t.modify sim_child fun d => d.with_seed (construct_seed_with_queue_entry q) region_index
  | none => t

/-- `flip_black` as a function. It leaves a node that is White already, and the last one of the
response, as it is. -/
def MctsTree.flip (t : MctsTree) (v : NodeId) (response_codes : List UInt32) (path_index : Nat) : MctsTree :=
  if t.colour? v = some .Black ∧ path_index + 1 ≠ response_codes.length
  then t.dye v (response_codes.take (path_index + 1)) else t

/-- `add_matched_seed` as a function, without its assertions. They are about what was stored,
and change nothing. -/
def MctsTree.seed_matched (t : MctsTree) (v : NodeId) (q : queue_entry) (response_codes : List UInt32)
    (region_index : Nat) : MctsTree :=
  if t.colour? v = some .White ∧ (q.regions[region_index]?.any fun r => r.state_count < response_codes.length)
  then t.seed v q region_index else t

/-- `dye_and_seed` as a function, for the regions that the scan has come to. -/
def MctsTree.dye_and_seed (t : MctsTree) (v : NodeId) (q : queue_entry) (response_codes : List UInt32)
    (path_index : Nat) (regions : RegionMatch) : MctsTree :=
  if regions.matched_exactly then
    (t.flip v response_codes path_index).seed_matched v q response_codes regions.matching_region_index
  else t

/-- `unmark_interior` as a function. -/
def MctsTree.unmark (t : MctsTree) (v : NodeId) (path_index len_codes : Nat) : MctsTree :=
  if path_index ≠ len_codes - 1 then t.modify v fun d => { d with fully_explored := false } else t

/-- One iteration of the second round, as a function. It takes the places of the source in the
same order, without reads and assertions. -/
def visit (q : queue_entry) (response_codes : List UInt32) (path_index : Nat) (code : UInt32) (s : Walk) : Walk :=
  let t := s.tree.unmark s.tree_node path_index response_codes.length
  let found := t.child_with_id s.tree_node code
  let new_node := s.new_node || found.isNone
  let regions := match_regions q response_codes path_index s.regions
  let tree_node := if new_node then t.nodes.length else found.getD s.tree_node
  let t := if new_node
    then t.append s.tree_node code regions.matched_exactly (response_codes.take (path_index + 1)) else t
  let t := t.dye_and_seed tree_node q response_codes path_index regions
  { tree := t, tree_node, new_node, regions }

/-- The whole second round, as a function, from the position `path_index` of the response on. -/
def visit_all (q : queue_entry) (response_codes : List UInt32) : Nat → List UInt32 → Walk → Walk
  | _, [], s => s
  | path_index, code :: codes, s =>
    visit_all q response_codes (path_index + 1) codes (visit q response_codes path_index code s)

/-- The assertions of `get_simulation_child` and of `new_tree_node_data` cannot fail. -/
def MayFail (site : Assertion) : Prop :=
  site ≠ .sim_child_allowed ∧ site ≠ .sim_child_is_golden ∧
    site ≠ .sim_node_id_is_999 ∧ site ≠ .rsp_node_id_is_last_code

/-- What the reads of an `Expansion` leave on record if they go past an array. -/
def OutOfBounds (site : Assertion) : Prop := site = .read_in_bounds

/-- A comparison is right exactly if both arrays have the bytes that are compared. -/
theorem memcmp_guarded (a b : List UInt32) (count : Nat) :
    Guarded (count ≤ 4 * a.length ∧ count ≤ 4 * b.length) MayFail OutOfBounds (memcmp a b count) fun _ => True := by
  have hsite : MayFail .read_in_bounds := by simp [MayFail]
  have hnote : Guarded (count ≤ 4 * a.length ∧ count ≤ 4 * b.length) MayFail OutOfBounds
      (note (count ≤ 4 * a.length ∧ count ≤ 4 * b.length) .read_in_bounds : M Unit) fun _ => True :=
    Guarded.note hsite rfl
  exact (hnote.bind fun _ _ => Guarded.pure trivial trivial).congr (and_iff_left trivial)

/-- A log line that writes codes of a region is right exactly if the array has as many; a
missing array has none. -/
theorem read_states_guarded (region : region_t) (count : Nat) :
    Guarded (count ≤ (region.state_sequence.getD []).length) MayFail OutOfBounds (read_states region count) fun _ => True :=
  Guarded.note (by simp [MayFail]) rfl

/-- The assertions of an `Expansion` outside `get_simulation_child` and `new_tree_node_data`. -/
theorem log_assert_holds {condition : Prop} [Decidable condition] {site : Assertion} (h : MayFail site ∧ ¬ OutOfBounds site) :
    Holds (fun site => MayFail site ∧ ¬ OutOfBounds site) (log_assert condition site) fun _ => True :=
  Holds.soft_assert (Or.inr h)

theorem MctsTree.seed_eq {t : MctsTree} {v s : NodeId} {n : GNode} (hv : t.nodes[v]? = some n)
    (hs : n.data.simulation_child = some s) (q : queue_entry) (region_index : Nat) :
    t.seed v q region_index =
      t.modify s fun d => d.with_seed (construct_seed_with_queue_entry q) region_index := by
  simp only [MctsTree.seed, hv, Option.bind_some, hs]

theorem MctsTree.colour?_eq {t : MctsTree} {v : NodeId} {n : GNode} (hv : t.nodes[v]? = some n) :
    t.colour? v = some n.data.colour := by
  simp only [MctsTree.colour?, hv, Option.map_some]

namespace Linked

variable {t : MctsTree}

theorem find_sibling_eq (code : UInt32) {siblings : List NodeId}
    (h : ∀ c ∈ siblings, ∃ m, t.nodes[c]? = some m) :
    find_sibling t code siblings =
      pure (siblings.find? fun c => t.nodes[c]?.any fun m => m.data.id = code) := by
  induction siblings with
  | nil => rfl
  | cons c siblings ih =>
    obtain ⟨m, hm⟩ := h c (List.mem_cons_self ..)
    have hrest := ih fun c' hc' => h c' (List.mem_cons_of_mem _ hc')
    rw [find_sibling, get_tree_node_data_eq hm, pure_bind, List.find?_cons, hm, hrest]
    by_cases hid : m.data.id = code <;> simp [hid]

theorem exists_child_eq (h : Linked t) {v : NodeId} {n : GNode} (hv : t.nodes[v]? = some n) (code : UInt32) :
    exists_child t v code = pure (t.child_with_id v code) := by
  have hchildren : ∀ c ∈ n.children, ∃ m, t.nodes[c]? = some m := by
    intro c hc
    obtain ⟨m, hm, _⟩ := h.child hv hc
    exact ⟨m, hm⟩
  rw [exists_child, deref_eq hv, pure_bind, find_sibling_eq code hchildren, MctsTree.child_with_id, hv]
  rfl

/-- A child that is found is a child. -/
theorem child_with_id_spec (h : Linked t) {v c : NodeId} {n : GNode} {code : UInt32} (hv : t.nodes[v]? = some n)
    (hc : t.child_with_id v code = some c) :
    c ∈ n.children ∧ ∃ m, t.nodes[c]? = some m ∧ m.parent = some v ∧ m.data.id = code := by
  rw [MctsTree.child_with_id, hv, Option.bind_some] at hc
  have hmem := List.mem_of_find?_eq_some hc
  obtain ⟨m, hm, hparent⟩ := h.child hv hmem
  have hid := List.find?_some hc
  rw [hm] at hid
  exact ⟨hmem, m, hm, hparent, by simpa using hid⟩

/-- Turning a node that is no SimNode White keeps the pointers coherent. -/
theorem dye (h : Linked t) {v : NodeId} {n : GNode} (hv : t.nodes[v]? = some n) (hcolour : n.data.colour ≠ .Golden)
    (path : List UInt32) : Linked (t.dye v path) := by
  have hgolden : (TreeNodeData.fresh 999 .Golden path).colour ≠ .White := by simp [TreeNodeData.fresh]
  exact (h.add hv hgolden).set_sim (MctsTree.getElem?_add_parent _ hv) hcolour
    (MctsTree.getElem?_add_new t v _) rfl rfl rfl

theorem append (h : Linked t) {v : NodeId} {n : GNode} (hv : t.nodes[v]? = some n) (code : UInt32) (white : Bool)
    (path : List UInt32) : Linked (t.append v code white path) := by
  have hblack : Linked (t.add v (.fresh code .Black path)) := h.add hv (by simp [TreeNodeData.fresh])
  cases white with
  | false => exact hblack
  | true => exact hblack.dye (MctsTree.getElem?_add_new t v _) (by simp [TreeNodeData.fresh]) path

theorem seed (h : Linked t) (v : NodeId) (q : queue_entry) (region_index : Nat) :
    Linked (t.seed v q region_index) := by
  rw [MctsTree.seed]
  split
  · rename_i s hs
    cases hnode : t.nodes[s]? with
    | none =>
      have hsame : t.modify s (fun d => d.with_seed (construct_seed_with_queue_entry q) region_index) = t := by
        apply MctsTree.ext_nodes
        intro u
        rw [MctsTree.getElem?_modify]
        by_cases hu : s = u
        · subst hu
          simp [hnode]
        · cases t.nodes[u]? <;> simp [hu]
      rw [hsame]
      exact h
    | some m => exact h.modify hnode rfl rfl
  · exact h

end Linked

/-- The three assignments behind a White child build the same memory as appending
it Black and dyeing it. -/
theorem append_child_eq {t : MctsTree} {v : NodeId} {n : GNode} (hv : t.nodes[v]? = some n) {code : UInt32}
    {path : List UInt32} (hpath : path.getLast? = some code) (white : Bool) :
    append_child t v code (if white then .White else .Black) path =
      pure (t.append v code white path, t.nodes.length) := by
  cases white with
  | false =>
    simp only [append_child, new_tree_node_data, log_assert, Bool.false_eq_true, if_false, reduceCtorEq,
      soft_assert_of_true hpath, pure_bind, g_node_append_data_eq hv, MctsTree.append]
  | true =>
    have hnew := MctsTree.getElem?_add_new t v (.fresh code .White path)
    have hsim : ((t.add v (.fresh code .White path)).add t.nodes.length (.fresh 999 .Golden path)).nodes[t.nodes.length]? =
        some { data := .fresh code .White path, parent := some v, children := [t.nodes.length + 1] } := by
      simpa using MctsTree.getElem?_add_parent (.fresh 999 .Golden path) hnew
    simp only [append_child, new_tree_node_data, log_assert, if_true, if_false, reduceCtorEq,
      soft_assert_of_true hpath, soft_assert_of_true (show (999 : UInt32) = 999 from rfl), pure_bind,
      g_node_append_data_eq hv, g_node_append_data_eq hnew, set_tree_node_data_eq hsim, MctsTree.append,
      MctsTree.dye, MctsTree.length_add]
    have hwhite : t.add v (.fresh code .White path) =
        (t.add v (.fresh code .Black path)).modify t.nodes.length fun d => { d with colour := .White } :=
      (MctsTree.add_modify_new t v (.fresh code .Black path) fun d => { d with colour := .White }).symm
    rw [hwhite, MctsTree.modify_add (by simp), MctsTree.modify_modify]
    rfl

theorem append_child_golden_eq {t : MctsTree} {v : NodeId} {n : GNode} (hv : t.nodes[v]? = some n)
    (path : List UInt32) :
    append_child t v 999 .Golden path = pure (t.add v (.fresh 999 .Golden path), t.nodes.length) := by
  simp only [append_child, new_tree_node_data, log_assert, if_true, if_false, reduceCtorEq,
    soft_assert_of_true (show (999 : UInt32) = 999 from rfl), pure_bind, g_node_append_data_eq hv]

/-- A White node has a simulation child, which is Golden, so that neither assertion fails. -/
theorem Linked.get_simulation_child_eq {t : MctsTree} (h : Linked t) {v : NodeId} {n : GNode}
    (hv : t.nodes[v]? = some n) (hwhite : n.data.colour = .White) :
    ∃ s m, n.data.simulation_child = some s ∧ t.nodes[s]? = some m ∧ m.data.colour = .Golden ∧
      get_simulation_child t v = pure s := by
  obtain ⟨s, m, hs, hm, hgolden⟩ := h.sim hv hwhite
  refine ⟨s, m, hs, hm, hgolden, ?_⟩
  have hallowed : n.data.colour ≠ .Golden ∧ n.data.colour ≠ .Black := by simp [hwhite]
  simp only [get_simulation_child, get_tree_node_data_eq hv, pure_bind, hs, log_assert,
    soft_assert_of_true hallowed, get_tree_node_data_eq hm, soft_assert_of_true hgolden]

end aflnet.mcts
