import AflnetLegion.Lib.Draws
import AflnetLegion.Lib.While
import AflnetLegion.Queue.SelectM2
import AflnetLegion.State.Choice
import AflnetLegion.State.FuzzedMap

open Draws

namespace aflnet

/-- The ways of selecting states and seeds, which the options `-q` and `-s` choose between. -/
inductive SelectionAlgo where
  | RANDOM_SELECTION
  | ROUND_ROBIN
  | FAVOR
  deriving DecidableEq, Repr

/-- Why a selection stops: it divides by zero, it reads where there is nothing, or the
hashtable has no entry, which is a fatal error. -/
inductive SelectionFailure where
  | division_by_zero
  | outside_state_ids
  | outside_seeds
  | outside_queue
  | outside_was_fuzzed_map
  | no_entries_for_state
  deriving DecidableEq, Repr

/-- What the selection of a seed reads of the queue and of the counters besides the states. -/
structure QueueView where
  favored : Nat → Bool
  generating_state_id : Nat → UInt32
  is_initial_seed : Nat → Bool
  pending_favored : UInt32
  queue_cycle : UInt64

/-- The variables of the selection of states and seeds. The index of the next seed of a state is
kept with the state. -/
structure Scheduler where
  ipsm : Ipsm
  selected_state_index : Nat
  state_cycles : Nat

/-- A selected state and the seed for it, which is NULL if the state has none. -/
structure Selected where
  target_state_id : UInt32
  selected_seed : Option Nat
  deriving DecidableEq, Repr

/-- An access to an array, which has to be in bounds. The failure says which array it was. -/
def read_array {α : Type} (xs : List α) (i : Nat) (cause : SelectionFailure) : Draws SelectionFailure α :=
  match xs[i]? with
  | some x => pure x
  | none => fail cause

namespace Scheduler

/-- `UR(limit)`, which divides by the limit. A limit of 0 is put down as a failure of the
selection. -/
def UR (limit : Nat) : Draws SelectionFailure Nat := below limit .division_by_zero

/-- `UR(100) < percent`, with which something is done in about so many of a hundred cases. -/
def chance (percent : Nat) : Draws SelectionFailure Bool := do
  let n ← UR 100
  pure (decide (n < percent))

variable (score : UInt32 → UInt32 → UInt32 → UInt32)

/-- The loop that computes the scores of all states. The source uses floating-point numbers, so
the formula is a parameter. -/
def score_states (g : Ipsm) : Ipsm :=
  g.state_ids.foldl (fun g state_id => g.modify_state state_id fun state =>
    { state with score := score state.fuzzs state.selected_times state.paths_discovered }) g

/-- The sums of the scores, from which a state is drawn. They are `u32` and can wrap. -/
def score_sums (g : Ipsm) : List UInt32 :=
  state_scores (g.state_ids.map fun state_id => ((score_states score g).khms_states state_id).map state_info_t.score)

/-- The third way of selecting a state, by the scores. The formula for the score is a parameter.
Without states the result is 0. -/
def update_scores_and_select_next_state (s : Scheduler) : Draws SelectionFailure (UInt32 × Scheduler) :=
  if s.ipsm.state_ids.length = 0 then pure (0, s)
  else do
    let sums := score_sums score s.ipsm
    let randV ← UR (sums.getLastD 0).toNat
    let result ← read_array s.ipsm.state_ids (index_search sums sums.length (UInt32.ofNat randV)) .outside_state_ids
    pure (result, { s with ipsm := score_states score s.ipsm })

/-- `selected_state_index++`, which goes back to 0 at the end. It is compared with the present
number of states. -/
def next_state_index (s : Scheduler) : Nat :=
  if s.selected_state_index + 1 = s.ipsm.state_ids.length then 0 else s.selected_state_index + 1

/-- `choose_target_state`, in each of the three ways. The way `FAVOR` takes turns until five
cycles are over, and uses the scores from then on. -/
def choose_target_state (mode : SelectionAlgo) (s : Scheduler) : Draws SelectionFailure (UInt32 × Scheduler) :=
  match mode with
  | .RANDOM_SELECTION => do
    let selected_state_index ← UR s.ipsm.state_ids.length
    let result ← read_array s.ipsm.state_ids selected_state_index .outside_state_ids
    pure (result, { s with selected_state_index })
  | .ROUND_ROBIN => do
    let result ← read_array s.ipsm.state_ids s.selected_state_index .outside_state_ids
    pure (result, { s with selected_state_index := s.next_state_index })
  | .FAVOR =>
    if s.state_cycles < 5 then do
      let result ← read_array s.ipsm.state_ids s.selected_state_index .outside_state_ids
      let state_cycles :=
        if s.selected_state_index + 1 = s.ipsm.state_ids.length then s.state_cycles + 1 else s.state_cycles
      pure (result, { s with selected_state_index := s.next_state_index, state_cycles })
    else s.update_scores_and_select_next_state score

/-- `kh_val(khms_states, k)->selected_times++`, which the scores depend on. -/
def count_selection (s : Scheduler) (target_state_id : UInt32) : Scheduler :=
  { s with ipsm := s.ipsm.modify_state target_state_id fun state => { state with selected_times := state.selected_times + 1 } }

/-- `was_fuzzed_map[target_state_index][result->index]`, which is out of bounds where the map
has no such cell. -/
def was_fuzzed (g : Ipsm) (target_state_id : UInt32) (q : Nat) : Draws SelectionFailure Int := do
  let entry ← read_array g.queue q .outside_queue
  match g.cell (g.get_state_index target_state_id) entry.index with
  | none => fail .outside_was_fuzzed_map
  | some value => pure value

/-- A seed that was generated for another state is skipped with high probability, unless it is
an initial one. -/
def skips_foreign (view : QueueView) (target_state_id : UInt32) (q : Nat) : Draws SelectionFailure Bool :=
  if view.generating_state_id q ≠ target_state_id ∧ view.is_initial_seed q = false then chance 90 else pure false

/-- `queue_cycle > 1 && (was_fuzzed_map[target_state_index][result->index] == 0)` -/
def never_fuzzed (g : Ipsm) (view : QueueView) (target_state_id : UInt32) (q : Nat) : Draws SelectionFailure Bool :=
  if 1 < view.queue_cycle then do
    let fuzzed ← was_fuzzed g target_state_id q
    pure (decide (fuzzed = 0))
  else pure false

/-- Whether the loop goes on to the next seed. It does so also where no `break` is
reached: with a favored seed when there is no pending one. -/
def skips (g : Ipsm) (view : QueueView) (target_state_id : UInt32) (q : Nat) : Draws SelectionFailure Bool := do
  let foreign ← skips_foreign view target_state_id q
  if foreign then pure true
  else if view.pending_favored ≠ 0 then do
    let fuzzed ← was_fuzzed g target_state_id q
    if fuzzed = 1 ∨ view.favored q = false then chance SKIP_TO_NEW_PROB else pure false
  else if view.favored q = false ∧ 10 < g.queued_paths then do
    let unfuzzed ← never_fuzzed g view target_state_id q
    if unfuzzed then chance SKIP_NFAV_NEW_PROB else chance SKIP_NFAV_OLD_PROB
  else pure true

/-- The index after this one, and whether a cycle is over. The seeds of a state can become more
between two selections, but not fewer. -/
def advance (seeds : List Nat) (passed_cycles index : Nat) : Nat × Nat :=
  if index + 1 = seeds.length then (passed_cycles + 1, 0) else (passed_cycles, index + 1)

/-- `while (passed_cycles < 5)`, with the seed of the last round. A seed that is not skipped
ends the loop, and after five passes the last one skipped is selected. -/
def favor_loop (g : Ipsm) (view : QueueView) (target_state_id : UInt32) (seeds : List Nat) (passed_cycles index : Nat)
    (result : Option Nat) : Draws SelectionFailure (Option Nat × Nat) :=
  if passed_cycles < 5 then
    match _hread : seeds[index]? with
    | none => fail .outside_seeds
    | some q => do
      let skipped ← skips g view target_state_id q
      if skipped then
        favor_loop g view target_state_id seeds (advance seeds passed_cycles index).1 (advance seeds passed_cycles index).2 (some q)
      else pure (some q, (advance seeds passed_cycles index).2)
  else pure (result, index)
termination_by 5 * seeds.length - (passed_cycles * seeds.length + index)
decreasing_by
  have hindex : index < seeds.length := (List.getElem?_eq_some_iff.mp _hread).1
  have hpassed : (passed_cycles + 1) * seeds.length ≤ 5 * seeds.length := Nat.mul_le_mul_right _ (by omega)
  rw [Nat.succ_mul] at hpassed
  unfold advance
  split
  · simp only [Nat.succ_mul]
    omega
  · dsimp only
    omega

/-- Stores `selected_seed_index`. -/
def with_seed_index (s : Scheduler) (state_id : UInt32) (state : state_info_t) (index : Nat) : Scheduler :=
  { s with ipsm := s.ipsm.set_state state_id { state with selected_seed_index := UInt32.ofNat index } }

/-- The seeds of a state take turns. The index of the next one is kept with the state. -/
def choose_seed_round_robin (s : Scheduler) (target_state_id : UInt32) (state : state_info_t) :
    Draws SelectionFailure (Option Nat × Scheduler) := do
  let result ← read_array state.seeds state.selected_seed_index.toNat .outside_seeds
  pure (some result, s.with_seed_index target_state_id state (advance state.seeds 0 state.selected_seed_index.toNat).2)

/-- `choose_seed`, in each of the three ways. A state without seeds selects none, and with up to
ten seeds the way `FAVOR` takes turns. -/
def choose_seed (mode : SelectionAlgo) (view : QueueView) (s : Scheduler) (target_state_id : UInt32) :
    Draws SelectionFailure (Option Nat × Scheduler) :=
  match s.ipsm.khms_states target_state_id with
  | none => fail .no_entries_for_state
  | some state =>
    if state.seeds.length = 0 then pure (none, s)
    else
      match mode with
      | .RANDOM_SELECTION => do
        let index ← UR state.seeds.length
        let result ← read_array state.seeds index .outside_seeds
        pure (some result, s.with_seed_index target_state_id state index)
      | .ROUND_ROBIN => s.choose_seed_round_robin target_state_id state
      | .FAVOR =>
        if 10 < state.seeds.length then do
          let (result, index) ←
            favor_loop s.ipsm view target_state_id state.seeds 0 state.selected_seed_index.toNat none
          pure (result, s.with_seed_index target_state_id state index)
        else s.choose_seed_round_robin target_state_id state

/-- One round of the loop that selects a state and a seed for it. What `cull_queue` does in
it to the queue is in the view. -/
def select (states seeds : SelectionAlgo) (view : QueueView) (s : Scheduler) :
    Draws SelectionFailure (Selected × Scheduler) := do
  let (target_state_id, s) ← s.choose_target_state score states
  let (selected_seed, s) ← (s.count_selection target_state_id).choose_seed seeds view target_state_id
  pure ({ target_state_id, selected_seed }, s)

end Scheduler

/-- The variables of the loop that looks for a seed with regions, with the numbers still to be
drawn and what the rounds to come will see of the queue. -/
structure Choosing where
  scheduler : Scheduler
  selected : Option Selected
  failure : Option SelectionFailure
  numbers : Nat → Nat
  views : Nat → QueueView

/-- `!selected_seed || selected_seed->region_count == 0`: a seed without regions has no M2 to
mutate. -/
def Ipsm.rejects (g : Ipsm) (selected_seed : Option Nat) : Bool :=
  match selected_seed with
  | none => true
  | some q => ((g.queue[q]?.map fun entry => entry.region_count).getD 0) == 0

/-- The loop `while (!selected_seed || selected_seed->region_count == 0)` around a selection. -/
def selection_loop (score : UInt32 → UInt32 → UInt32 → UInt32) (states seeds : SelectionAlgo) : While Unit Choosing where
  more c := c.scheduler.ipsm.rejects (c.selected.bind Selected.selected_seed)
  body c := pure <|
    match c.scheduler.select score states seeds (c.views 0) c.numbers with
    | .ok ((selected, scheduler), numbers) =>
      .yield { scheduler, selected := some selected, failure := none, numbers, views := fun k => c.views (k + 1) }
    | .error cause => .done { c with failure := some cause }

end aflnet
