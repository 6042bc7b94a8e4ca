import AflnetLegion.Mcts.TreeNode

open Checked

namespace aflnet.mcts

/-- First round: walk down as far as the codes have nodes. The result is `*new_path`, which is
set as soon as a code has none; nothing is changed yet. -/
def first_round (t : MctsTree) : NodeId → List UInt32 → M Bool
  | _, [] => pure false
  | parent_node, code :: codes => do
    match ← exists_child t parent_node code with
    | none => pure true
    | some child_node => first_round t child_node codes

/-- The two variables the region scan carries from one path position to the next. The second one
says whether the region was annotated with exactly the codes up to the position. -/
structure RegionMatch where
  matching_region_index : Nat
  matched_exactly : Bool
  deriving DecidableEq, Repr

/-- The scan at one path position, from `region_index` on: it stops at the first
region long enough, and changes nothing if there is none. -/
def scan_regions (response_codes : List UInt32) (path_index : Nat) :
    List region_t → Nat → RegionMatch → RegionMatch
  | [], _, current => current
  | region :: regions, region_index, current =>
    if path_index + 1 ≤ region.state_count then
      let matched_len := path_index = region.state_count - 1
      let matched_sequence := memcmp_eq response_codes (region.state_sequence.getD []) region.state_count
      { matching_region_index := region_index, matched_exactly := matched_len ∧ matched_sequence = true }
    else scan_regions response_codes path_index regions (region_index + 1) current

/-- The regions with `region_index < q->region_count && region_index < len_codes`. -/
def scanned_regions (q : queue_entry) (response_codes : List UInt32) : List region_t :=
  q.live_regions.take response_codes.length

/-- The scan at one path position: it starts at the region of the last match, or behind it if
that one was exact. What it starts from is kept when no region matches. -/
def match_regions (q : queue_entry) (response_codes : List UInt32) (path_index : Nat)
    (current : RegionMatch) : RegionMatch :=
  let start := current.matching_region_index + current.matched_exactly.toNat
  scan_regions response_codes path_index ((scanned_regions q response_codes).drop start) start current

/-- The `memcmp` of the scan at one path position: with the first region that is long enough.
The scan ends there, so the regions behind it are not read. -/
def compare_codes (response_codes : List UInt32) (path_index : Nat) : List region_t → M Unit
  | [] => pure ()
  | region :: regions =>
    if path_index + 1 ≤ region.state_count then do
      let _ ← memcmp response_codes (region.state_sequence.getD []) region.state_count
      pure ()
    else compare_codes response_codes path_index regions

/-- What `match_regions` reads: its result does not depend on whether the bytes are there, so
the reads are put on record beside it. -/
def compare_regions (q : queue_entry) (response_codes : List UInt32) (path_index : Nat)
    (current : RegionMatch) : M Unit :=
  let start := current.matching_region_index + current.matched_exactly.toNat
  compare_codes response_codes path_index ((scanned_regions q response_codes).drop start)

/-- Flip an exactly matched node that is Black and not a termination point. It becomes White and
gets a SimNode, as a region of a seed ends there. -/
def flip_black (t : MctsTree) (tree_node : NodeId) (response_codes : List UInt32) (path_index : Nat) :
    M MctsTree := do
  let d ← get_tree_node_data t tree_node
  if d.colour = .Black ∧ path_index + 1 ≠ response_codes.length then do
    let t ← set_tree_node_data t tree_node fun d => { d with colour := .White }
    let (t, sim_child) ← append_child t tree_node 999 .Golden (response_codes.take (path_index + 1))
    set_tree_node_data t tree_node fun d => { d with simulation_child := some sim_child }
  else pure t

/-- Store `q` in the SimNode of an exactly matched White node, unless the region is the last one
of the entry. The assertions compare the region with the path of the node once the seed is
stored. -/
def add_matched_seed (t : MctsTree) (tree_node : NodeId) (q : queue_entry) (response_codes : List UInt32)
    (matching_region_index : Nat) : M MctsTree := do
  let d ← get_tree_node_data t tree_node
  if d.colour = .White then
    match q.regions[matching_region_index]? with
    | none => fail .out_of_bounds
    | some region =>
    if region.state_count < response_codes.length then do
      let sim_child ← get_simulation_child t tree_node
      let t ← add_seed_to_node t (construct_seed_with_queue_entry q) matching_region_index sim_child
      let _ ← get_simulation_child t tree_node
      log_assert (d.path_len ≤ region.state_count) .seed_region_reaches_node
      read_states region d.path_len
      let same ← memcmp (region.state_sequence.getD []) d.path (4 * d.path_len)
      log_assert (same = true) .seed_region_agrees_with_node
      pure t
    else pure t
  else pure t

/-- What the second round does after an exact match at its current node. A node that was flipped
is White and gets the seed at once. -/
def dye_and_seed (t : MctsTree) (tree_node : NodeId) (q : queue_entry) (response_codes : List UInt32)
    (path_index : Nat) (regions : RegionMatch) : M MctsTree :=
  if regions.matched_exactly then do
    let t ← flip_black t tree_node response_codes path_index
    add_matched_seed t tree_node q response_codes regions.matching_region_index
  else pure t

/-- The variables of the second round: the tree, the node it has come to, whether that node was
appended by this call, and the region scan. -/
structure Walk where
  tree : MctsTree
  tree_node : NodeId
  new_node : Bool
  regions : RegionMatch
  deriving DecidableEq, Repr

/-- The variables before the second round: no node is new, and the scan begins at the first
region. -/
def Walk.start (t : MctsTree) (tree_node : NodeId) : Walk :=
  { tree := t, tree_node, new_node := false, regions := { matching_region_index := 0, matched_exactly := false } }

/-- A node that is not the last in an execution sequence is not fully explored. The index it is
told by belongs to the child that is looked for next, and not to the node. -/
def unmark_interior (t : MctsTree) (tree_node : NodeId) (path_index len_codes : Nat) : M MctsTree := do
  let d ← get_tree_node_data t tree_node
  if path_index ≠ len_codes - 1 ∧ d.fully_explored = true then
    set_tree_node_data t tree_node fun d => { d with fully_explored := false }
  else pure t

/-- The assertion made when no child has the code: the first round must have found the path to
be new. -/
def note_missing (found : Option NodeId) (new_path : Bool) : M Unit :=
  match found with
  | none => log_assert (new_path = true) .new_path_captured
  | some _ => pure ()

/-- The next node of the walk: the child found, unless a node has been appended
before, in which case every further node is appended too. -/
def step_down (t : MctsTree) (parent_node : NodeId) (found : Option NodeId) (new_node : Bool) (code : UInt32)
    (colour : node_colour) (path : List UInt32) : M (MctsTree × NodeId) :=
  match found, new_node with
  | some child_node, false => pure (t, child_node)
  | _, _ => append_child t parent_node code colour path

/-- One iteration of the second round, for the code at `path_index`: unmark the current node,
match the regions, go down to the child, which may be a new one, and dye it and give it a seed.
-/
def second_round_step (q : queue_entry) (response_codes : List UInt32) (new_path : Bool)
    (path_index : Nat) (code : UInt32) (s : Walk) : M Walk := do
  let parent_node := s.tree_node
  let t ← unmark_interior s.tree s.tree_node path_index response_codes.length
  let found ← exists_child t s.tree_node code
  note_missing found new_path
  let new_node := s.new_node || found.isNone
  compare_regions q response_codes path_index s.regions
  let regions := match_regions q response_codes path_index s.regions
  let colour : node_colour := if regions.matched_exactly then .White else .Black
  let (t, tree_node) ← step_down t parent_node found new_node code colour (response_codes.take (path_index + 1))
  let t ← dye_and_seed t tree_node q response_codes path_index regions
  let d ← get_tree_node_data t tree_node
  log_assert (d.path_len = path_index + 1) .node_path_len
  -- the log line before reads as many codes of the response
  let same ← memcmp d.path response_codes (4 * d.path_len)
  log_assert (same = true) .node_path_agrees
  pure { tree := t, tree_node, new_node, regions }

/-- The loop over the codes of the response from position `path_index` on. The first code is
that of the root, for which there is no iteration. -/
def second_round (q : queue_entry) (response_codes : List UInt32) (new_path : Bool) :
    Nat → List UInt32 → Walk → M Walk
  | _, [], s => pure s
  | path_index, code :: codes, s => do
    let s ← second_round_step q response_codes new_path path_index code s
    second_round q response_codes new_path (path_index + 1) codes s

/-- The walk from `parent_node` up to the root. A chain of parents that is longer
than the number of nodes is circular. -/
def propagate_discovered (is_new : Bool) : Nat → MctsTree → Option NodeId → M MctsTree
  | _, t, none => pure t
  | 0, _, some _ => fail .endless_loop
  | fuel + 1, t, some parent_node => do
    let t ← set_tree_node_data t parent_node fun d => { d with discovered := d.discovered + is_new.toUInt32 }
    let n ← deref t parent_node
    propagate_discovered is_new fuel t n.parent

/-- Both rounds, with the seed for the SimNode of the root between them. Every entry gives the
root a seed, with region index 0. -/
def expansion_rounds (t : MctsTree) (tree_node : NodeId) (q : queue_entry) (response_codes : List UInt32) :
    M (Walk × Bool) := do
  let new_path ← first_round t tree_node response_codes.tail
  let d ← get_tree_node_data t tree_node
  log_assert (d.id = 0) .expansion_starts_at_root
  let root_sim ← get_simulation_child t tree_node
  let t ← add_seed_to_node t (construct_seed_with_queue_entry q) 0 root_sim
  let s ← second_round q response_codes new_path 1 response_codes.tail (Walk.start t tree_node)
  pure (s, new_path)

/-- What follows the second round. The guard of a log line asks whether
`tree_node->parent` is the root and thereby reads through that pointer. -/
def expansion_epilogue (t : MctsTree) (tree_node : NodeId) (new_path : Bool) : M MctsTree := do
  let leaf ← is_leaf t tree_node
  let t ← set_tree_node_data t tree_node fun d => { d with fully_explored := leaf }
  let n ← deref t tree_node
  match n.parent with
  | none => fail .null_dereference
  | some parent_node =>
  let _ ← deref t parent_node
  propagate_discovered new_path (t.nodes.length + 1) t (some tree_node)

/-- `response_codes` holds the `len_codes` codes of the response. The result is the
node returned together with `*new_path`. -/
def Expansion (t : MctsTree) (tree_node : NodeId) (q : queue_entry) (response_codes : List UInt32) :
    M (MctsTree × NodeId × Bool) :=
  match q.live_regions.getLast?, response_codes.head? with
  | some last_region, some first_code => do
    log_assert (last_region.state_count = response_codes.length) .last_region_has_all_codes
    read_states last_region response_codes.length
    let same ← memcmp (last_region.state_sequence.getD []) response_codes response_codes.length
    log_assert (same = true) .last_region_is_response
    log_assert (first_code = 0) .response_starts_with_zero
    let (s, new_path) ← expansion_rounds t tree_node q response_codes
    let t ← expansion_epilogue s.tree s.tree_node new_path
    pure (t, s.tree_node, new_path)
  | _, _ => fail .out_of_bounds

end aflnet.mcts
