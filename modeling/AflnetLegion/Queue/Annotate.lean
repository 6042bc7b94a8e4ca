import AflnetLegion.Data
import AflnetLegion.Mcts.TreeNode

open Checked

namespace aflnet

open mcts

/-- The response codes of the first `size` bytes of a buffer. Every extractor finds
at least one code in a response. -/
structure CodeExtractor where
  extract_response_codes : List UInt8 → Nat → List UInt32
  nonempty : ∀ response_buf size, 0 < size → extract_response_codes response_buf size ≠ []

/-- What the server sent, and how much of it had arrived after each message. There
are as many numbers as messages sent. -/
structure Responses where
  response_buf : List UInt8
  response_bytes : List Nat
  deriving DecidableEq, Repr

/-- A region whose annotation was removed. -/
def region_t.without_states (region : region_t) : region_t := .fresh region.start_byte region.end_byte

/-- A region with a new annotation. -/
def region_t.with_states (region : region_t) (codes : List UInt32) : region_t :=
  .annotated region.start_byte region.end_byte codes

namespace queue_entry

/-- `q->regions[index]`, which has to be within the array but may be behind the regions that are
left. -/
def get_region (q : queue_entry) (index : Nat) : M region_t :=
  match q.regions[index]? with
  | none => fail .out_of_bounds
  | some region => pure region

/-- An assignment to a region of the array. -/
def set_region (q : queue_entry) (index : Nat) (region : region_t) : queue_entry :=
  { q with regions := q.regions.set index region, allocated := by rw [List.length_set]; exact q.allocated }

/-- An assignment to `region_count`. The array cannot grow with it. -/
def set_region_count (q : queue_entry) (count : Nat) : queue_entry :=
  { q with region_count := min count q.regions.length, allocated := Nat.min_le_right _ _ }

end queue_entry

/-- The loop of `update_region_annotations` from the message `i` on; `previous` is
the entry of `response_bytes` before it. -/
def annotate_from (extractor : CodeExtractor) (response_buf : List UInt8) :
    Nat → Option Nat → List Nat → queue_entry → M queue_entry
  | _, _, [], q => pure q
  | i, previous, bytes :: rest, q => do
    let region ← q.get_region i
    annotate_from extractor response_buf (i + 1) (some bytes) rest
      (q.set_region i (if bytes = 0 ∨ previous = some bytes then region.without_states
        else region.with_states (extractor.extract_response_codes response_buf bytes)))

/-- `update_region_annotations`, from the first message on. A region is annotated with the codes
of all that has been received by the end of its message. -/
def update_region_annotations (extractor : CodeExtractor) (responses : Responses) (q : queue_entry) : M queue_entry :=
  annotate_from extractor responses.response_buf 0 none responses.response_bytes q

/-- The inner loop of `remove_null_regions`: the first annotated region from `index`
on, at most `left` regions further. -/
def skip_null_regions (q : queue_entry) : Nat → Nat → M Nat
  | 0, index => pure index
  | left + 1, index => do
    let region ← q.get_region index
    if region.state_sequence = none then skip_null_regions q left (index + 1) else pure index

/-- The first loop of `remove_null_regions`, with `left` rounds to go. Each round puts the next
annotated region in its place, and the count of regions is cut when there is none. -/
def close_gaps (q : queue_entry) : Nat → Nat → Nat → M queue_entry
  | 0, _, _ => pure q
  | left + 1, region_index, null_region_count => do
    let region ← q.get_region region_index
    log_assert (0 < region.state_count ↔ region.state_sequence ≠ none) .count_matches_sequence
    if null_region_count = 0 ∧ region.state_sequence ≠ none then close_gaps q left (region_index + 1) null_region_count
    else do
      let found ←
        skip_null_regions q (q.region_count - (region_index + null_region_count)) (region_index + null_region_count)
      if q.region_count ≤ found then pure (q.set_region_count region_index)
      else do
        let replacement ← q.get_region found
        log_assert (replacement.state_sequence ≠ none) .replacement_is_annotated
        close_gaps (q.set_region region_index replacement) left (region_index + 1) (found - region_index)

/-- The last loop of `remove_null_regions`, with its assertion: what is left has annotations. -/
def check_annotated : List region_t → M Unit
  | [] => pure ()
  | region :: regions => do
    log_assert (region.state_sequence ≠ none ∧ region.state_count ≠ 0) .region_is_annotated
    check_annotated regions

/-- `remove_null_regions`: the gaps are closed and the rest is checked. The array keeps its
length. -/
def remove_null_regions (q : queue_entry) : M queue_entry := do
  let q ← close_gaps q q.region_count 0 0
  check_annotated q.live_regions
  pure q

/-- The number of states that a region is cut to. -/
def truncated_state_count : Nat := 200

/-- A region with its count, but not its array, cut to 200 states. What is behind stays
allocated. -/
def region_t.truncate (region : region_t) : region_t :=
  { region with
    state_count := min region.state_count truncated_state_count
    allocated := Nat.le_trans (Nat.min_le_left _ _) region.allocated }

/-- The loop of `truncate_long_regions`, with `left` rounds to go. A region with fewer states is
left as it is. -/
def truncate_from (q : queue_entry) : Nat → Nat → M queue_entry
  | 0, _ => pure q
  | left + 1, region_index => do
    let region ← q.get_region region_index
    log_assert (0 < region.state_count ↔ region.state_sequence ≠ none) .count_matches_sequence
    if region.state_count < truncated_state_count then truncate_from q left (region_index + 1)
    else truncate_from (q.set_region region_index region.truncate) left (region_index + 1)

/-- `truncate_long_regions`, over the regions that are left. -/
def truncate_long_regions (q : queue_entry) : M queue_entry := truncate_from q q.region_count 0

/-- `preprocess_queue_entry`: both steps, first the regions without annotations and then the
long ones. -/
def preprocess_queue_entry (q : queue_entry) : M queue_entry := do
  let q ← remove_null_regions q
  truncate_long_regions q

/-- What `update_MCTS_tree` does to the entry before the expansion. The responses are those of
the last run, which was of this entry. -/
def annotate_and_preprocess (extractor : CodeExtractor) (responses : Responses) (q : queue_entry) : M queue_entry := do
  let q ← update_region_annotations extractor responses q
  preprocess_queue_entry q

end aflnet
