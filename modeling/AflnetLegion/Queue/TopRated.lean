import AflnetLegion.Lib.Bitmap
import AflnetLegion.Messages.Klist
import AflnetLegion.State.Ipsm

open Checked

namespace aflnet

/-- The number of slots, `1 << 16`. -/
def MAP_SIZE : Nat := 65536

/-- The fields of a queue entry that decide whether it is favored, with the references to it and
its trace. -/
structure rated_entry where
  index : Nat
  len : UInt32
  generating_state_id : UInt32
  is_initial_seed : Bool
  unique_state_count : UInt32
  exec_us : UInt64
  cal_failed : UInt8
  was_fuzzed : Bool
  favored : Bool
  tc_ref : UInt32
  trace_mini : Option Bitmap

/-- An entry as `add_to_queue` allocates it. It has no trace and no references until it was
calibrated. -/
def rated_entry.fresh (index : Nat) (len generating_state_id : UInt32) : rated_entry where
  index := index
  len := len
  generating_state_id := generating_state_id
  is_initial_seed := false
  unique_state_count := 0
  exec_us := 0
  cal_failed := 0
  was_fuzzed := false
  favored := false
  tc_ref := 0
  trace_mini := none

/-- `exec_us * len`, as it is multiplied in 64 bits. -/
def rated_entry.fav_factor (q : rated_entry) : UInt64 := q.exec_us * q.len.toUInt64

/-- The queue, whose entries are given by their positions, and what is kept about the
favored ones. Entry `i` of `top_rated` is NULL or an entry of the queue. -/
structure Favorites where
  queue : Nat → rated_entry
  queued_paths : Nat
  top_rated : Nat → Option Nat
  score_changed : Bool
  queued_favored : UInt32
  pending_favored : UInt32
  pending_not_fuzzed : UInt32
  target_state_id : UInt32
  ipsm : Ipsm
  dumb_mode : Bool

/-- What `minimize_bits` makes of a bitmap and the trace: the bits of the slots that are hit are
set, and none is cleared. -/
def minimize_bits (dst : Bitmap) (src : Nat → UInt8) : Bitmap :=
  (List.range MAP_SIZE).foldl (fun dst i => if src i ≠ 0 then dst.set i else dst) dst

/-- The slots that the trace hits are added. -/
theorem test_minimize_bits (dst : Bitmap) (src : Nat → UInt8) (k : Nat) :
    (minimize_bits dst src).test k = (dst.test k || decide (k < MAP_SIZE ∧ src k ≠ 0)) := by
  rw [minimize_bits]
  generalize MAP_SIZE = n
  induction n with
  | zero => simp
  | succ n ih =>
    rw [List.range_succ, List.foldl_concat]
    by_cases hhit : src n ≠ 0
    · rw [if_pos hhit, Bitmap.test_set, ih, Bool.or_assoc, ← Bool.decide_or]
      congr 2
      refine propext ⟨?_, fun ⟨hlt, hk⟩ => ?_⟩
      · rintro (⟨hlt, hk⟩ | rfl)
        · exact ⟨Nat.lt_succ_of_lt hlt, hk⟩
        · exact ⟨Nat.lt_succ_self _, hhit⟩
      · rcases Nat.lt_succ_iff_lt_or_eq.mp hlt with hbefore | rfl
        · exact Or.inl ⟨hbefore, hk⟩
        · exact Or.inr rfl
    · rw [if_neg hhit, ih]
      congr 2
      refine propext ⟨fun ⟨hlt, hk⟩ => ⟨Nat.lt_succ_of_lt hlt, hk⟩, fun ⟨hlt, hk⟩ => ⟨?_, hk⟩⟩
      rcases Nat.lt_succ_iff_lt_or_eq.mp hlt with hbefore | rfl
      · exact hbefore
      · exact absurd hk hhit

namespace Favorites

/-- A change of one entry. -/
def modify (s : Favorites) (q : Nat) (f : rated_entry → rated_entry) : Favorites :=
  { s with queue := Function.update s.queue q (f (s.queue q)) }

end Favorites

/-- The previous winner of a slot loses a reference, and its trace with the last one. The source
frees the trace there. -/
def rated_entry.release (w : rated_entry) : rated_entry :=
  { w with
    tc_ref := w.tc_ref - 1
    trace_mini := if w.tc_ref - 1 = 0 then none else w.trace_mini }

/-- The new winner gets one, and a trace if it has none. The trace is that of its present run,
also for the slots it won before. -/
def rated_entry.retain (q : rated_entry) (trace_bits : Nat → UInt8) : rated_entry :=
  { q with
    tc_ref := q.tc_ref + 1
    trace_mini := if q.trace_mini.isSome then q.trace_mini else some (minimize_bits (fun _ => 0) trace_bits) }

/-- `favored = 1`. -/
def rated_entry.as_favored (e : rated_entry) : rated_entry := { e with favored := true }

/-- `was_fuzzed = 1`. -/
def rated_entry.as_fuzzed (e : rated_entry) : rated_entry := { e with was_fuzzed := true }

/-- Whether `q` does not win a slot from `w`. The second comparison is made after the
first one failed, so it never decides. -/
def rated_entry.loses (q w : rated_entry) : Bool :=
  q.unique_state_count < w.unique_state_count ||
    q.unique_state_count < w.unique_state_count && w.fav_factor < q.fav_factor

namespace Favorites

/-- The entry becomes the winner of the slot, and the favored entries have to be chosen anew. -/
def win_slot (s : Favorites) (q : Nat) (trace_bits : Nat → UInt8) (i : Nat) : Favorites :=
  { s.modify q fun e => e.retain trace_bits with
    top_rated := Function.update s.top_rated i (some q)
    score_changed := true }

/-- One round of `update_bitmap_score`. A slot that is not hit is left alone, and so is one
whose winner is better. -/
def update_slot (q : Nat) (trace_bits : Nat → UInt8) (s : Favorites) (i : Nat) : Favorites :=
  if trace_bits i = 0 then s
  else
    match s.top_rated i with
    | none => s.win_slot q trace_bits i
    | some w =>
      if (s.queue q).loses (s.queue w) then s else (s.modify w rated_entry.release).win_slot q trace_bits i

/-- `update_bitmap_score`, over all slots. It is called for an entry after its calibration, with
the trace of the last run. -/
def update_bitmap_score (q : Nat) (trace_bits : Nat → UInt8) (s : Favorites) : Favorites :=
  (List.range MAP_SIZE).foldl (update_slot q trace_bits) s

/-- The trace of a winner, which `cull_queue` reads without a check. A winner whose trace was
freed would be read through NULL. -/
def get_trace_mini (s : Favorites) (w : Nat) : F Bitmap :=
  match (s.queue w).trace_mini with
  | none => fail .invalid_pointer
  | some trace_mini => pure trace_mini

/-- `was_fuzzed_map[get_state_index(target_state_id)][index]`, which has to be in the map. -/
def get_was_fuzzed (s : Favorites) (w : Nat) : F Int :=
  match s.ipsm.cell (s.ipsm.get_state_index s.target_state_id) (s.queue w).index with
  | none => fail .out_of_bounds
  | some value => pure value

/-- Whether a favored entry is counted as pending: it belongs to the target state, or is an
initial seed, and was not fuzzed for that state. -/
def is_pending (s : Favorites) (w : Nat) : F Bool :=
  if (s.queue w).generating_state_id = s.target_state_id ∨ (s.queue w).is_initial_seed then do
    let value ← s.get_was_fuzzed w
    pure (value = 0)
  else pure false

/-- The flags and the counters are reset. The flags of initial seeds are kept, although they are
counted anew as well. -/
def reset_favored (s : Favorites) : Favorites :=
  { s with
    score_changed := false
    queued_favored := 0
    pending_favored := 0
    queue := fun q =>
      if q < s.queued_paths ∧ ¬ (s.queue q).is_initial_seed then { s.queue q with favored := false } else s.queue q }

/-- The entries after the reset: those in the queue that are no initial seeds have lost the
flag. -/
theorem reset_favored_queue (s : Favorites) (q : Nat) : s.reset_favored.queue q =
    if q < s.queued_paths ∧ ¬ (s.queue q).is_initial_seed then { s.queue q with favored := false } else s.queue q := rfl

/-- The winner of a slot becomes a favored entry. It is counted without a look at whether it is
one already. -/
def favor (s : Favorites) (w : Nat) : F Favorites := do
  let pending ← s.is_pending w
  pure { s.modify w rated_entry.as_favored with
    queued_favored := s.queued_favored + 1
    pending_favored := if pending then s.pending_favored + 1 else s.pending_favored }

/-- A slot that is still in `temp_v`, whose winner takes its bits from there. A winner without a
trace would be a NULL pointer. -/
def cull_slot (c : Bitmap × Favorites) (i : Nat) : F (Bitmap × Favorites) :=
  match c.2.top_rated i with
  | none => pure c
  | some w =>
    if c.1.test i then do
      let trace_mini ← c.2.get_trace_mini w
      let s ← c.2.favor w
      pure (c.1.remove trace_mini (MAP_SIZE / 8), s)
    else pure c

/-- The choice of the favored entries, slot by slot. Marking the files of redundant entries is
left out, as nothing here reads them. -/
def cull_queue (s : Favorites) : F Favorites :=
  if s.dumb_mode ∨ ¬ s.score_changed then pure s
  else do
    let c ← (List.range MAP_SIZE).foldlM cull_slot (fun _ => 255, s.reset_favored)
    pure c.2

/-- `add_to_queue`: the entry is the last one of the queue and counts as not fuzzed. It keeps
the state that was the target when it was found. -/
def add_to_queue (s : Favorites) (q : queue_entry) (len : UInt32) : Favorites :=
  { s with
    queue := Function.update s.queue s.queued_paths (.fresh s.queued_paths len s.target_state_id)
    queued_paths := s.queued_paths + 1
    pending_not_fuzzed := s.pending_not_fuzzed + 1
    ipsm := s.ipsm.add_to_queue q }

/-- `was_fuzzed_map[get_state_index(target_state_id)][index] = 1` -/
def set_was_fuzzed (s : Favorites) (w : Nat) : F Favorites := do
  let row := s.ipsm.get_state_index s.target_state_id
  let _ ← s.get_was_fuzzed w
  pure { s with
    ipsm := { s.ipsm with
      was_fuzzed_map := s.ipsm.was_fuzzed_map.modify row fun cells => cells.set (s.queue w).index 1 } }

/-- Whether `fuzz_one` counts the entry as done. -/
def finishes (s : Favorites) (queue_cur : Nat) (stop_soon : Bool) : Bool :=
  !stop_soon && (s.queue queue_cur).cal_failed = 0 && !(s.queue queue_cur).was_fuzzed

/-- The end of `fuzz_one`, from the label `abandon_entry` on. An entry is counted off once, at
the first time that it was fuzzed to the end. -/
def fuzz_one_end (s : Favorites) (queue_cur : Nat) (stop_soon : Bool) : F Favorites :=
  if s.finishes queue_cur stop_soon then do
    let s ← (s.modify queue_cur rated_entry.as_fuzzed).set_was_fuzzed queue_cur
    pure { s with
      pending_not_fuzzed := s.pending_not_fuzzed - 1
      pending_favored := if (s.queue queue_cur).favored then s.pending_favored - 1 else s.pending_favored }
  else pure s

/-- At the start the queue is empty, and the entries are not in use. Entries are numbered, and
those beyond the queue have no meaning. -/
def start (dumb_mode : Bool) : Favorites where
  queue := fun _ => .fresh 0 0 0
  queued_paths := 0
  top_rated := fun _ => none
  score_changed := false
  queued_favored := 0
  pending_favored := 0
  pending_not_fuzzed := 0
  target_state_id := 0
  ipsm := .start
  dumb_mode := dumb_mode

/-- A pointer to an entry of the queue. -/
def in_queue (s : Favorites) (q : Nat) : F Unit := if q < s.queued_paths then pure () else fail .invalid_pointer

end Favorites

/-- What the fuzzer does, in any mode and any order. `measure` is what calibration and
`update_state_aware_variables` assign to an entry, `update_variables` what the latter
makes of the state-aware variables. -/
inductive Event where
  | add_to_queue (q : queue_entry) (len : UInt32)
  | mark_initial_seed (q : Nat)
  | measure (q : Nat) (exec_us : UInt64) (unique_state_count : UInt32) (cal_failed : UInt8)
  | update_bitmap_score (q : Nat) (trace_bits : Nat → UInt8)
  | update_variables (ipsm : Ipsm)
  | choose_target_state (state_id : UInt32)
  | cull_queue
  | fuzz_one_end (queue_cur : Nat) (stop_soon : Bool)

namespace Favorites

/-- What an event does to the state. An event for an entry that is not in the queue cannot
happen. -/
def step (s : Favorites) : Event → F Favorites
  | .add_to_queue q len => pure (s.add_to_queue q len)
  | .mark_initial_seed q => do
    s.in_queue q
    pure (s.modify q fun e => { e with is_initial_seed := true })
  | .measure q exec_us unique_state_count cal_failed => do
    s.in_queue q
    pure (s.modify q fun e => { e with exec_us, unique_state_count, cal_failed })
  | .update_bitmap_score q trace_bits => do
    s.in_queue q
    pure (s.update_bitmap_score q trace_bits)
  | .update_variables ipsm => pure { s with ipsm }
  | .choose_target_state state_id => pure { s with target_state_id := state_id }
  | .cull_queue => s.cull_queue
  | .fuzz_one_end queue_cur stop_soon => do
    s.in_queue queue_cur
    s.fuzz_one_end queue_cur stop_soon

/-- The states of the runs all of whose steps are allowed. What is allowed may depend on the
state before the step. -/
inductive Run (Allowed : Favorites → Event → Prop) : Favorites → Prop where
  | start (dumb_mode : Bool) : Run Allowed (start dumb_mode)
  | step {s t : Favorites} (e : Event) : Run Allowed s → Allowed s e → Returns (s.step e) t → Run Allowed t

end Favorites

end aflnet
