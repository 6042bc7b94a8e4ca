import Mathlib.Data.List.Basic
import AflnetLegion.Lib.Checked
import AflnetLegion.Data

open Checked

namespace aflnet.mcts

/-- `enum node_colour`. `Expansion` makes White, Golden and Black nodes only: White ones are the
ends of requests, Golden ones their SimNodes, and Black ones lie in between. -/
inductive node_colour where
  | White | Red | Golden | Purple | Black
  deriving DecidableEq, Repr

/-- The address of a tree node; nodes are numbered in allocation order, and none is ever freed.
-/
abbrev NodeId := Nat

/-- One use of a queue entry as a seed. `parent_index` is unset until the seed is stored in a
node, and is then its place among the seeds there. -/
structure seed_info_t where
  q : queue_entry
  parent_index : Option Nat
  selected : UInt32
  discovered : UInt32
  deriving DecidableEq, Repr

/-- `seeds` and `region_indices` are parallel arrays of length `seeds_count`.
`simulation_child` is `none` as long as the field has never been assigned. -/
structure TreeNodeData where
  id : UInt32
  path : List UInt32
  selected : UInt32
  discovered : UInt32
  seeds : List seed_info_t
  region_indices : List Nat
  simulation_child : Option NodeId
  colour : node_colour
  fully_explored : Bool
  deriving DecidableEq, Repr

/-- `path_len`, which is the length of the array. -/
def TreeNodeData.path_len (d : TreeNodeData) : Nat := d.path.length

def TreeNodeData.seeds_count (d : TreeNodeData) : Nat := d.seeds.length

/-- A `GNode`: its data, its parent pointer and its list of children. The sibling pointers of
GLib are given by the order in that list. -/
structure GNode where
  data : TreeNodeData
  parent : Option NodeId
  children : List NodeId
  deriving DecidableEq, Repr

/-- The memory holding the search tree, by the addresses of its nodes. Nodes are never freed or
moved, so an address stays valid. -/
structure MctsTree where
  nodes : List GNode
  deriving DecidableEq, Repr

/-- The conditions the code checks with `log_assert`, and a last one that it relies on but
nothing checks: a read stays inside the array it is meant for. -/
inductive Assertion where
  | sim_node_id_is_999
  | rsp_node_id_is_last_code
  | sim_child_allowed
  | sim_child_is_golden
  | seed_goes_to_sim_node
  | region_index_in_range
  | region_reaches_node
  | region_agrees_with_node
  | last_region_has_all_codes
  | last_region_is_response
  | response_starts_with_zero
  | expansion_starts_at_root
  | new_path_captured
  | seed_region_reaches_node
  | seed_region_agrees_with_node
  | node_path_len
  | node_path_agrees
  | best_child_is_live
  | root_is_live
  | selected_node_is_live
  | black_has_one_child
  | black_child_is_not_golden
  | M2_not_empty
  | M1_reaches_node
  | M1_agrees_with_node
  | count_matches_sequence
  | replacement_is_annotated
  | region_is_annotated
  | read_in_bounds
  deriving DecidableEq, Repr

/-- Operations without a defined result. The last one is a loop that does not end within its
fuel, which no coherent tree leads to. -/
inductive Fault where
  | null_dereference
  | unset_pointer
  | out_of_bounds
  | endless_loop
  deriving DecidableEq, Repr

abbrev M (α : Type) := Comp Fault Assertion α

/-- `log_assert(condition, ...)`: with `IGNORE_ASSERT` unset, `assert(condition)`. Otherwise a
failure is logged and the function goes on. -/
def log_assert (condition : Prop) [Decidable condition] (site : Assertion) : M Unit :=
  soft_assert condition site

/-- `u32_array_to_str(region.state_sequence, count)` for a log line reads that many codes of
the array, which is NULL if there is none. The log line is all that depends on them, so a read
past the array is put on record and the call goes on. The calls with `region.state_count`
codes are left out: these are always there. -/
def read_states (region : region_t) (count : Nat) : M Unit :=
  note (count ≤ (region.state_sequence.getD []).length) .read_in_bounds

/-- `memcmp(a, b, count) == 0` reads `count` bytes of both arrays. Bytes that are not there are
put on record, and the result is then of no use. -/
def memcmp (a b : List UInt32) (count : Nat) : M Bool := do
  note (count ≤ 4 * a.length ∧ count ≤ 4 * b.length) .read_in_bounds
  pure (memcmp_eq a b count)

/-- Following a pointer to a tree node, which fails for a pointer to none. -/
def deref (t : MctsTree) (v : NodeId) : M GNode :=
  match t.nodes[v]? with
  | some n => pure n
  | none => fail .null_dereference

/-- `get_tree_node_data`, a read through a pointer to a node. -/
def get_tree_node_data (t : MctsTree) (v : NodeId) : M TreeNodeData := do
  let n ← deref t v
  pure n.data

/-- The tree with the data of one node replaced. -/
def MctsTree.modify (t : MctsTree) (v : NodeId) (f : TreeNodeData → TreeNodeData) : MctsTree :=
  { nodes := t.nodes.modify v fun n => { n with data := f n.data } }

/-- An assignment through a pointer to node data. The links of the node are not part of its
data. -/
def set_tree_node_data (t : MctsTree) (v : NodeId) (f : TreeNodeData → TreeNodeData) : M MctsTree := do
  let _ ← deref t v
  pure (t.modify v f)

/-- `G_NODE_IS_ROOT`; the root of a tree never has siblings. -/
def G_NODE_IS_ROOT (n : GNode) : Bool := n.parent.isNone

/-- The tree with a new last child below `v`. The address of the node is the number of nodes
before. -/
def MctsTree.add (t : MctsTree) (v : NodeId) (d : TreeNodeData) : MctsTree :=
  { nodes := (t.nodes.modify v fun n => { n with children := n.children ++ [t.nodes.length] }) ++
      [{ data := d, parent := some v, children := [] }] }

/-- `g_node_append_data`: the tree with the new node, and its address. The node becomes the last
child of its parent. -/
def g_node_append_data (t : MctsTree) (parent : NodeId) (d : TreeNodeData) : M (MctsTree × NodeId) := do
  let _ ← deref t parent
  pure (t.add parent d, t.nodes.length)

/-- The record `new_tree_node_data` fills in; it leaves `simulation_child` alone, so that the
pointer has no value until it is set. -/
def TreeNodeData.fresh (response_code : UInt32) (colour : node_colour) (path : List UInt32) : TreeNodeData :=
  { id := response_code, path, selected := 0, discovered := 0, seeds := [], region_indices := [],
    simulation_child := none, colour, fully_explored := false }

/-- `new_tree_node_data` with its assertion on the id: 999 for a SimNode, and otherwise the last
code of the path. -/
def new_tree_node_data (response_code : UInt32) (colour : node_colour) (path : List UInt32) : M TreeNodeData := do
  if colour = .Golden then
    log_assert (response_code = 999) .sim_node_id_is_999
  else
    log_assert (path.getLast? = some response_code) .rsp_node_id_is_last_code
  pure (.fresh response_code colour path)

/-- Reading the field before any assignment has no defined result; the field is
never assigned NULL, so the first assertion of the source is always true. -/
def get_simulation_child (t : MctsTree) (v : NodeId) : M NodeId := do
  let d ← get_tree_node_data t v
  match d.simulation_child with
  | none => fail .unset_pointer
  | some sim_child =>
    log_assert (d.colour ≠ .Golden ∧ d.colour ≠ .Black) .sim_child_allowed
    let sd ← get_tree_node_data t sim_child
    log_assert (sd.colour = .Golden) .sim_child_is_golden
    pure sim_child

/-- The sibling list from `child_node` on, searched for a node with the given id. A SimNode is
among the siblings, with its id 999. -/
def find_sibling (t : MctsTree) (target_response_code : UInt32) : List NodeId → M (Option NodeId)
  | [] => pure none
  | child_node :: siblings => do
    let d ← get_tree_node_data t child_node
    if d.id = target_response_code then pure (some child_node)
    else find_sibling t target_response_code siblings

/-- `exists_child`, which follows the sibling list from the first child on. The result is NULL
if none has the code. -/
def exists_child (t : MctsTree) (v : NodeId) (target_response_code : UInt32) : M (Option NodeId) := do
  let n ← deref t v
  find_sibling t target_response_code n.children

/-- A White child gets its SimNode at once: the recursive call appends a Golden
node, for which the recursion ends. -/
def append_child (t : MctsTree) (v : NodeId) (child_response_code : UInt32) (colour : node_colour)
    (path : List UInt32) : M (MctsTree × NodeId) := do
  let d ← new_tree_node_data child_response_code colour path
  let (t, child) ← g_node_append_data t v d
  if colour = .White then
    let sd ← new_tree_node_data 999 .Golden path
    let (t, sim_child) ← g_node_append_data t child sd
    let t ← set_tree_node_data t child fun d => { d with simulation_child := some sim_child }
    pure (t, child)
  else
    pure (t, child)

/-- A seed that has not been used yet. Its place in a node is set when it is stored. -/
def construct_seed_with_queue_entry (q : queue_entry) : seed_info_t :=
  { q, parent_index := none, selected := 0, discovered := 0 }

/-- The node data after `add_seed_to_node` has appended a seed. The region index is stored at
the same place as the seed, where `find_M2_region` reads it. -/
def TreeNodeData.with_seed (d : TreeNodeData) (seed : seed_info_t) (matching_region_index : Nat) : TreeNodeData :=
  { d with
    seeds := d.seeds ++ [{ seed with parent_index := some d.seeds_count }]
    region_indices := d.region_indices ++ [matching_region_index] }

/-- `add_seed_to_node`: the seed is stored and then compared with its region, for which the path
of the node and the array of the region are read. -/
def add_seed_to_node (t : MctsTree) (seed : seed_info_t) (matching_region_index : Nat) (v : NodeId) :
    M MctsTree := do
  let d ← get_tree_node_data t v
  log_assert (d.colour = .Golden) .seed_goes_to_sim_node
  let t ← set_tree_node_data t v fun d => d.with_seed seed matching_region_index
  match seed.q.regions[matching_region_index]? with
  | none => fail .out_of_bounds
  | some node_region =>
    log_assert (matching_region_index ≤ seed.q.region_count) .region_index_in_range
    log_assert (d.path_len ≤ node_region.state_count) .region_reaches_node
    read_states node_region d.path_len
    -- the length given to memcmp is a number of codes, used as a number of bytes
    let same ← memcmp (node_region.state_sequence.getD []) d.path d.path_len
    log_assert (same = true) .region_agrees_with_node
    pure t

/-- `is_leaf`: a node whose only child, if any, is its SimNode. A Purple node, whose children
are not known, is none. -/
def is_leaf (t : MctsTree) (v : NodeId) : M Bool := do
  let n ← deref t v
  match n.children with
  | [] => pure (n.data.colour ≠ .Purple)
  | [child] => do
    let d ← get_tree_node_data t child
    pure (n.data.colour ≠ .Purple ∧ d.colour = .Golden)
  | _ => pure false

/-- The address of the root node. -/
def ROOT : NodeId := 0

/-- `Initialisation`: a White root with the code 0, and its SimNode. Both paths consist of the
initial state. -/
def Initialisation : M MctsTree := do
  let d ← new_tree_node_data 0 .White [0]
  let t : MctsTree := { nodes := [{ data := d, parent := none, children := [] }] }
  let (t, sim_child) ← append_child t ROOT 999 .Golden [0]
  set_tree_node_data t ROOT fun d => { d with simulation_child := some sim_child }

end aflnet.mcts
