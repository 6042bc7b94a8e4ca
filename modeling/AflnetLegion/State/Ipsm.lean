import Mathlib.Logic.Function.Basic
import AflnetLegion.State.Novelty

open Checked

namespace aflnet

/-- What is known about a state. `seeds` are the positions in the queue of the seeds that reach
it, and `selected_seed_index` is where their turns have got to. -/
structure state_info_t where
  id : UInt32
  is_covered : Bool
  paths : UInt32
  paths_discovered : UInt32
  selected_times : UInt32
  fuzzs : UInt32
  score : UInt32
  selected_seed_index : UInt32
  seeds : List Nat
  deriving DecidableEq, Repr

/-- A state as it is inserted: it counts as covered, has the score 1, and nothing has been
selected. -/
def state_info_t.new (id : UInt32) (seeds : List Nat) : state_info_t where
  id := id
  is_covered := true
  paths := 0
  paths_discovered := 0
  selected_times := 0
  fuzzs := 0
  score := 1
  selected_seed_index := 0
  seeds := seeds

/-- A seed with the fields that the state-aware mode adds: its column of the map, and the number
of different states it reaches. -/
structure aware_entry extends queue_entry where
  index : Nat
  unique_state_count : Nat
  deriving DecidableEq, Repr

/-- A seed as it is added, with its index. -/
def aware_entry.new (q : queue_entry) (index : Nat) : aware_entry := { q with index, unique_state_count := 0 }

/-- The variables of the state-aware mode. A node of the graph is given by the state
whose decimal number is its name; the buffer for the name has room for every number.
A new cell of `was_fuzzed_map` is -1. -/
structure Ipsm where
  khs_ipsm_paths : List UInt32
  nodes : List UInt32
  edges : List (UInt32 × UInt32)
  khms_states : UInt32 → Option state_info_t
  state_ids : List UInt32
  was_fuzzed_map : List (List Int)
  fuzzed_map_states : Nat
  fuzzed_map_qentries : Nat
  queue : List aware_entry
  queued_paths : Nat

/-- Why `update_state_aware_variables` stops: it accesses an array or the queue where
there is nothing, or there is no initial state, which is a fatal error. -/
inductive AwareFailure where
  | outside_was_fuzzed_map
  | outside_regions
  | outside_queue
  | no_initial_state
  deriving DecidableEq, Repr

/-- Operations on the state-aware variables. They have no soft assertions. -/
abbrev A := Comp AwareFailure Empty

namespace Ipsm

/-- After `setup_ipsm`: no state is registered, and the map has neither rows nor columns. -/
def start : Ipsm where
  khs_ipsm_paths := []
  nodes := []
  edges := []
  khms_states := fun _ => none
  state_ids := []
  was_fuzzed_map := []
  fuzzed_map_states := 0
  fuzzed_map_qentries := 0
  queue := []
  queued_paths := 0

/-- `get_state_index`, which is the number of states for one that is not registered. A row of
that number is not in the map. -/
def get_state_index (g : Ipsm) (state_id : UInt32) : Nat := g.state_ids.findIdx (· = state_id)

/-- A cell of `was_fuzzed_map`, if it is there. The map is an array of rows that grow one by
one. -/
def cell (g : Ipsm) (i j : Nat) : Option Int := (g.was_fuzzed_map[i]?.getD [])[j]?

/-- The rows and their cells are reallocated, which fills them up with zeros, and then
the cells outside the old dimensions are set. -/
def expand_was_fuzzed_map (g : Ipsm) (new_states new_qentries : Nat) : Ipsm :=
  { g with
    was_fuzzed_map := (List.range (g.fuzzed_map_states + new_states)).map fun i =>
      (List.range (g.fuzzed_map_qentries + new_qentries)).map fun j =>
        if g.fuzzed_map_states ≤ i ∨ g.fuzzed_map_qentries ≤ j then -1 else (g.cell i j).getD 0
    fuzzed_map_states := g.fuzzed_map_states + new_states
    fuzzed_map_qentries := g.fuzzed_map_qentries + new_qentries }

/-- The last part of `add_to_queue`, with the regions that it found. The first entry makes the
first row of the map, before any state is registered. -/
def add_to_queue (g : Ipsm) (q : queue_entry) : Ipsm :=
  let g := { g with
    queue := g.queue ++ [aware_entry.new q g.queued_paths]
    queued_paths := g.queued_paths + 1 }
  if g.fuzzed_map_states ≠ 0 then g.expand_was_fuzzed_map 0 1 else g.expand_was_fuzzed_map 1 1

/-- The entry of a state in the hashtable is written. -/
def set_state (g : Ipsm) (state_id : UInt32) (state : state_info_t) : Ipsm :=
  { g with khms_states := Function.update g.khms_states state_id (some state) }

/-- The insertion of a state into the hashtable and `state_ids`, as it is made in three places.
The initial state has a row already. -/
def insert_state (g : Ipsm) (state_id : UInt32) (seeds : List Nat) : Ipsm :=
  let g := { g.set_state state_id (.new state_id seeds) with state_ids := g.state_ids ++ [state_id] }
  if state_id ≠ 0 then g.expand_was_fuzzed_map 1 0 else g

/-- A node of the graph is created. -/
def add_node (g : Ipsm) (state_id : UInt32) : Ipsm := { g with nodes := g.nodes ++ [state_id] }

/-- A state of the sequence, which is inserted if the graph has no node for it. The hashtable is
not asked, so a state that is there without a node is inserted again. -/
def visit_state (g : Ipsm) (state_id : UInt32) : Ipsm :=
  if state_id ∈ g.nodes then g else (g.add_node state_id).insert_state state_id []

/-- A transition of the sequence, which gets an edge if it has none. -/
def visit_edge (g : Ipsm) (prevStateID curStateID : UInt32) : Ipsm :=
  if (prevStateID, curStateID) ∈ g.edges then g else { g with edges := g.edges ++ [(prevStateID, curStateID)] }

/-- The loop over the transitions of the sequence. Both states of a transition are visited, and
so a sequence of one state changes nothing. -/
def update_graph (g : Ipsm) : UInt32 → List UInt32 → Ipsm
  | _, [] => g
  | prevStateID, curStateID :: rest =>
    (((g.visit_state prevStateID).visit_state curStateID).visit_edge prevStateID curStateID).update_graph curStateID rest

/-- The graph is updated when the sequence is interesting, that is, when its key is new. -/
def record_path (g : Ipsm) (state_sequence : List UInt32) : Ipsm :=
  let interesting := is_state_sequence_interesting g.khs_ipsm_paths state_sequence
  let g := { g with khs_ipsm_paths := interesting.2 }
  if interesting.1 then g.update_graph (state_sequence.headD 0) state_sequence.tail else g

/-- The seed at a position of the queue is changed. -/
def set_entry (g : Ipsm) (position : Nat) (q : aware_entry) : Ipsm := { g with queue := g.queue.set position q }

/-- `was_fuzzed_map[row][column] = 0`, which is out of bounds where the map has no such cell. -/
def mark_reachable (g : Ipsm) (row column : Nat) : A Ipsm :=
  match g.cell row column with
  | none => fail .outside_was_fuzzed_map
  | some _ => pure { g with was_fuzzed_map := g.was_fuzzed_map.modify row fun cells => cells.set column 0 }

/-- A seed is appended to those of a state. -/
def add_seed (state : state_info_t) (q : Nat) : state_info_t := { state with seeds := state.seeds ++ [q] }

/-- Every seed reaches the initial state, which must have been registered by then. -/
def add_initial_seed (g : Ipsm) (q index : Nat) : A Ipsm :=
  match g.khms_states 0 with
  | none => fail .no_initial_state
  | some state => (g.set_state 0 (add_seed state q)).mark_reachable 0 index

/-- The last state of a region gets the seed. A state that was not seen before is
inserted, but not as a node of the graph. -/
def add_region_seed (g : Ipsm) (q index : Nat) (region : region_t) : A Ipsm :=
  match region.codes.getLast? with
  | none => pure g
  | some reachable_state_id =>
    let g := match g.khms_states reachable_state_id with
      | some state => g.set_state reachable_state_id (add_seed state q)
      | none => g.insert_state reachable_state_id [q]
    g.mark_reachable (g.get_state_index reachable_state_id) index

/-- The loop over the regions of the seed. Each region gives the seed to the last state that it
reaches. -/
def add_region_seeds (q index : Nat) : List region_t → Ipsm → A Ipsm
  | [], g => pure g
  | region :: regions, g => do
    let g ← g.add_region_seed q index region
    add_region_seeds q index regions g

/-- The entry of a state in the hashtable is changed, if it has one. -/
def modify_state (g : Ipsm) (state_id : UInt32) (f : state_info_t → state_info_t) : Ipsm :=
  { g with khms_states := Function.update g.khms_states state_id ((g.khms_states state_id).map f) }

/-- Count a path for every state of the sequence, once for each. The states that were counted
are kept in a set for the call. -/
def count_paths (g : Ipsm) (khs_state_ids : List UInt32) : List UInt32 → Ipsm
  | [] => g
  | state_id :: rest =>
    if state_id ∈ khs_state_ids then g.count_paths khs_state_ids rest
    else
      (g.modify_state state_id fun state => { state with paths := state.paths + 1 }).count_paths
        (state_id :: khs_state_ids) rest

/-- Count a discovered path for the target state, unless the seed is an initial one. -/
def count_discovery (g : Ipsm) (dry_run : Bool) (target_state_id : UInt32) : Ipsm :=
  if dry_run then g
  else g.modify_state target_state_id fun state => { state with paths_discovered := state.paths_discovered + 1 }

end Ipsm

/-- The number of different states of a sequence, counted with a set of those that were met. -/
def get_unique_state_count (khs_state_ids : List UInt32) : List UInt32 → Nat
  | [] => 0
  | state_id :: rest =>
    if state_id ∈ khs_state_ids then get_unique_state_count khs_state_ids rest
    else get_unique_state_count (state_id :: khs_state_ids) rest + 1

/-- What the extractor returns during one update: for the whole response and for the
response to each message. The results need not agree with each other. -/
structure Extraction where
  state_sequence : List UInt32
  response_bytes : List Nat
  regional : Nat → List UInt32

/-- One round of `update_region_annotations`. A region whose message was not answered gets no
codes. -/
def Extraction.annotate (x : Extraction) (i : Nat) (region : region_t) : region_t :=
  match x.response_bytes[i]? with
  | none => region
  | some bytes =>
    if bytes = 0 ∨ (0 < i ∧ x.response_bytes[i - 1]? = some bytes) then .fresh region.start_byte region.end_byte
    else .annotated region.start_byte region.end_byte (x.regional i)

/-- The loop of `update_region_annotations`, which writes to as many regions as messages were
sent. -/
def aware_entry.annotate (q : aware_entry) (x : Extraction) : A aware_entry :=
  if q.regions.length < x.response_bytes.length then fail .outside_regions
  else pure { q with regions := q.regions.mapIdx x.annotate, allocated := by rw [List.length_mapIdx]; exact q.allocated }

/-- A call of `update_state_aware_variables`. There is no extraction if there was no
response. -/
structure AwareCall where
  q : Nat
  dry_run : Bool
  target_state_id : UInt32
  extraction : Option Extraction

namespace Ipsm

/-- The part of the call that adds the seed to the states it reaches: the initial one, and those
at the ends of its regions. -/
def update_seeds (g : Ipsm) (position : Nat) (q : aware_entry) : A Ipsm := do
  let g ← g.add_initial_seed position q.index
  add_region_seeds position q.index q.live_regions g

/-- `update_state_aware_variables`, from the extraction of the sequence to the counters. -/
def update_state_aware_variables (g : Ipsm) (call : AwareCall) : A Ipsm :=
  match call.extraction with
  | none => pure g
  | some x =>
    match g.queue[call.q]? with
    | none => fail .outside_queue
    | some q => do
      let q := { q with unique_state_count := get_unique_state_count [] x.state_sequence }
      let g := g.record_path x.state_sequence
      let q ← q.annotate x
      let g ← (g.set_entry call.q q).update_seeds call.q q
      pure ((g.count_paths [] x.state_sequence).count_discovery call.dry_run call.target_state_id)

end Ipsm

end aflnet
