import AflnetLegion.Lib.Table
import AflnetLegion.State.Registered

open Checked Table

namespace aflnet

/-- The sequence of an update starts with the initial state and has a transition. -/
def AwareCall.Valid (call : AwareCall) : Prop :=
  ∀ x, call.extraction = some x → x.state_sequence.head? = some 0 ∧ 2 ≤ x.state_sequence.length

namespace Ipsm

variable {g g' : Ipsm} {s : UInt32}

theorem cell_eq_get? (g : Ipsm) (i j : Nat) : g.cell i j = get? g.was_fuzzed_map i j := rfl

/-- An expansion keeps the old cells of the map and sets the new ones to -1, which says that the
seed does not reach the state. -/
def ExpandsSafely (g : Ipsm) : Prop :=
  ∀ new_states new_qentries i j,
    (i < g.fuzzed_map_states → j < g.fuzzed_map_qentries → ∀ value, g.cell i j = some value →
      (g.expand_was_fuzzed_map new_states new_qentries).cell i j = some value) ∧
    (i < g.fuzzed_map_states + new_states → j < g.fuzzed_map_qentries + new_qentries →
      (g.fuzzed_map_states ≤ i ∨ g.fuzzed_map_qentries ≤ j) →
      (g.expand_was_fuzzed_map new_states new_qentries).cell i j = some (-1))

/-- It does so for any dimensions, also before the first state. -/
theorem expands_safely (g : Ipsm) : g.ExpandsSafely := by
  intro new_states new_qentries i j
  constructor
  · intro hi hj value hvalue
    have hold : ¬ (g.fuzzed_map_states ≤ i ∨ g.fuzzed_map_qentries ≤ j) := by omega
    rw [cell_eq_get?, expand_was_fuzzed_map]
    refine (get?_build _ (Nat.lt_add_right _ hi) (Nat.lt_add_right _ hj)).trans ?_
    rw [if_neg hold, hvalue, Option.getD_some]
  · intro hi hj hnew
    rw [cell_eq_get?, expand_was_fuzzed_map]
    refine (get?_build _ hi hj).trans ?_
    rw [if_pos hnew]

theorem rectangular_expand (g : Ipsm) (new_states new_qentries : Nat) :
    Rectangular (g.expand_was_fuzzed_map new_states new_qentries).was_fuzzed_map
      (g.expand_was_fuzzed_map new_states new_qentries).fuzzed_map_states
      (g.expand_was_fuzzed_map new_states new_qentries).fuzzed_map_qentries := rectangular_build ..

/-- The dimensions of the map fit the queue and the registered states. Row 0 is there
before any state is known, and the first state to be registered is the initial one. -/
structure Mapped (g : Ipsm) : Prop where
  indices : g.queue.map aware_entry.index = List.range g.queued_paths
  table : Rectangular g.was_fuzzed_map g.fuzzed_map_states g.fuzzed_map_qentries
  qentries : g.fuzzed_map_qentries = g.queued_paths
  states : g.fuzzed_map_states = max 1 g.state_ids.length
  registered : ∀ s, s ∈ g.state_ids ↔ (g.khms_states s).isSome = true
  first : ∀ s, g.state_ids.head? = some s → s = 0
  node : 0 ∈ g.nodes ↔ 0 ∈ g.state_ids

/-- The initial state has been registered, which is the case from the first update on. Row 0 is
its row. -/
structure Started (g : Ipsm) : Prop extends Mapped g where
  initial : 0 ∈ g.state_ids

theorem Mapped.add_to_queue (h : g.Mapped) (q : queue_entry) : (g.add_to_queue q).Mapped := by
  have hpositive : g.fuzzed_map_states ≠ 0 := by
    rw [h.states]
    omega
  rw [Ipsm.add_to_queue]
  dsimp only
  rw [if_pos hpositive]
  exact {
    indices := by simp [expand_was_fuzzed_map, h.indices, aware_entry.new, List.range_succ]
    table := rectangular_expand ..
    qentries := congrArg (· + 1) h.qentries
    states := h.states
    registered := h.registered
    first := h.first
    node := h.node }

/-- The first seed. -/
theorem mapped_of_start (q : queue_entry) : (start.add_to_queue q).Mapped where
  indices := rfl
  table := rectangular_expand _ 1 1
  qentries := rfl
  states := rfl
  registered := fun _ => iff_of_false List.not_mem_nil Bool.false_ne_true
  first := fun _ hs => nomatch hs
  node := iff_of_false List.not_mem_nil List.not_mem_nil

/-- An index is in use by the queue if it is a column. -/
theorem Mapped.index_lt (h : g.Mapped) {q : aware_entry} (hq : q ∈ g.queue) : q.index < g.fuzzed_map_qentries := by
  have hindex := List.mem_map_of_mem (f := aware_entry.index) hq
  rw [h.indices] at hindex
  rw [h.qentries]
  exact List.mem_range.mp hindex

theorem get_state_index_lt (hs : s ∈ g.state_ids) : g.get_state_index s < g.state_ids.length :=
  List.findIdx_lt_length_of_exists ⟨s, hs, decide_eq_true rfl⟩

/-- The row of a registered state. -/
theorem Mapped.get_state_index_lt (h : g.Mapped) (hs : s ∈ g.state_ids) : g.get_state_index s < g.fuzzed_map_states := by
  have hlt := Ipsm.get_state_index_lt hs
  rw [h.states]
  omega

/-- The cell of a registered state and a seed of the queue is there. -/
theorem Mapped.cell_isSome (h : g.Mapped) (hs : s ∈ g.state_ids) {q : aware_entry} (hq : q ∈ g.queue) :
    (g.cell (g.get_state_index s) q.index).isSome = true :=
  h.table.isSome_get?_iff.mpr ⟨h.get_state_index_lt hs, h.index_lt hq⟩

/-- Row 0 is the row of the initial state, and of no other one. -/
theorem Mapped.get_state_index_eq_zero_iff (h : g.Mapped) (hs : s ∈ g.state_ids) : g.get_state_index s = 0 ↔ s = 0 := by
  cases hids : g.state_ids with
  | nil =>
    rw [hids] at hs
    exact absurd hs List.not_mem_nil
  | cons t rest =>
    obtain rfl := h.first t (by rw [hids, List.head?_cons])
    unfold get_state_index
    rw [hids, List.findIdx_cons]
    by_cases hzero : s = 0
    · simp [hzero]
    · simp [hzero, Ne.symm hzero]

theorem Started.set_state (h : g.Started) (hs : (g.khms_states s).isSome = true) (state : state_info_t) :
    (g.set_state s state).Started where
  toMapped := { h with
    registered := by
      intro r
      refine (h.registered r).trans ?_
      rw [isSome_set_state]
      apply (or_iff_left_of_imp _).symm
      rintro rfl
      exact hs }
  initial := h.initial

theorem Started.add_node (h : g.Started) (s : UInt32) : (g.add_node s).Started where
  toMapped := { h with node := iff_of_true (List.mem_append_left _ (h.node.mpr h.initial)) h.initial }
  initial := h.initial

/-- A row is added for every state that is inserted after the initial one, also for one
that is inserted again. -/
theorem Started.insert_state (h : g.Started) (hs : s ≠ 0) (seeds : List Nat) : (g.insert_state s seeds).Started := by
  have hpositive := List.length_pos_of_mem h.initial
  rw [Ipsm.insert_state]
  dsimp only
  rw [if_pos hs]
  exact {
    indices := h.indices
    table := rectangular_expand ..
    qentries := h.qentries
    states := by
      have hstates := h.states
      simp only [expand_was_fuzzed_map, Ipsm.set_state, List.length_append, List.length_singleton]
      omega
    registered := by
      intro r
      simp only [expand_was_fuzzed_map, List.mem_append, List.mem_singleton, isSome_set_state]
      exact or_congr_left (h.registered r)
    first := by
      intro r hr
      apply h.first r
      simp only [expand_was_fuzzed_map] at hr
      rwa [List.head?_append_of_ne_nil _ (List.ne_nil_of_length_pos hpositive)] at hr
    node := iff_of_true (h.node.mpr h.initial) (List.mem_append_left _ h.initial)
    initial := List.mem_append_left _ h.initial }

/-- If the initial state has no node, no state is registered. -/
theorem Mapped.state_ids_eq_nil (h : g.Mapped) (hnode : 0 ∉ g.nodes) : g.state_ids = [] := by
  cases hids : g.state_ids with
  | nil => rfl
  | cons s rest =>
    have hfirst := h.first s (by rw [hids, List.head?_cons])
    exact absurd (h.node.mpr (by simp [hids, hfirst])) hnode

/-- The initial state has its row already. -/
theorem Mapped.visit_initial (h : g.Mapped) : (g.visit_state 0).Started := by
  unfold visit_state
  split
  · rename_i hnode
    exact { h with initial := h.node.mp hnode }
  · rename_i hnode
    have hids := h.state_ids_eq_nil hnode
    rw [Ipsm.insert_state]
    dsimp only
    rw [if_neg (not_not.mpr rfl)]
    exact {
      indices := h.indices
      table := h.table
      qentries := h.qentries
      states := by
        have hstates := h.states
        simp only [hids, List.length_nil] at hstates
        simp [Ipsm.set_state, Ipsm.add_node, hids, hstates]
      registered := by
        intro r
        simp only [List.mem_append, List.mem_singleton, isSome_set_state]
        exact or_congr_left (h.registered r)
      first := by
        intro r hr
        simpa [Ipsm.add_node, Ipsm.set_state, hids, eq_comm] using hr
      node := iff_of_true (List.mem_append_right _ (List.mem_singleton.mpr rfl))
        (List.mem_append_right _ (List.mem_singleton.mpr rfl))
      initial := List.mem_append_right _ (List.mem_singleton.mpr rfl) }

/-- Visiting a state keeps the dimensions right: a new state gets a row. -/
theorem Started.visit_state (h : g.Started) (s : UInt32) : (g.visit_state s).Started := by
  unfold Ipsm.visit_state
  split
  · exact h
  · rename_i hnode
    have hs : s ≠ 0 := by
      rintro rfl
      exact hnode (h.node.mpr h.initial)
    exact (h.add_node s).insert_state hs []

theorem Started.visit_edge (h : g.Started) (prevStateID curStateID : UInt32) :
    (g.visit_edge prevStateID curStateID).Started := by
  unfold Ipsm.visit_edge
  split
  · exact h
  · exact { h with }

theorem Started.update_graph (h : g.Started) (prevStateID : UInt32) (rest : List UInt32) :
    (g.update_graph prevStateID rest).Started := by
  induction rest generalizing g prevStateID with
  | nil => exact h
  | cons curStateID rest ih =>
    apply ih
    apply Started.visit_edge
    exact (h.visit_state prevStateID).visit_state curStateID

/-- The first sequence of a run is interesting, whatever it is. Later ones find the
initial state registered. -/
theorem Mapped.record_path {state_sequence : List UInt32} (h : g.Mapped)
    (hfresh : g.state_ids = [] → g.khs_ipsm_paths = []) (hhead : state_sequence.head? = some 0)
    (hlength : 2 ≤ state_sequence.length) : (g.record_path state_sequence).Started := by
  obtain ⟨curStateID, rest, rfl⟩ : ∃ curStateID rest, state_sequence = 0 :: curStateID :: rest := by
    match state_sequence, hhead, hlength with
    | _ :: curStateID :: rest, rfl, _ => exact ⟨curStateID, rest, rfl⟩
  rw [Ipsm.record_path]
  generalize hpaths :
    { g with khs_ipsm_paths := (is_state_sequence_interesting g.khs_ipsm_paths (0 :: curStateID :: rest)).2 } = g'
  have hmapped : g'.Mapped := hpaths ▸ { h with }
  split
  · rw [List.headD_cons, List.tail_cons, Ipsm.update_graph]
    apply Started.update_graph
    apply Started.visit_edge
    exact hmapped.visit_initial.visit_state curStateID
  · rename_i hknown
    have hids : g.state_ids ≠ [] := by
      intro hids
      rw [hfresh hids] at hknown
      exact hknown rfl
    refine { hmapped with initial := ?_ }
    by_contra hinitial
    have hnil := hmapped.state_ids_eq_nil (mt hmapped.node.mp hinitial)
    rw [← hpaths] at hnil
    exact hids hnil

theorem queue_visit_state (g : Ipsm) (s : UInt32) : (g.visit_state s).queue = g.queue := by
  unfold visit_state
  split
  · rfl
  · exact queue_insert_state (g.add_node s) s []

theorem queue_update_graph (g : Ipsm) (prevStateID : UInt32) (rest : List UInt32) :
    (g.update_graph prevStateID rest).queue = g.queue := by
  induction rest generalizing g prevStateID with
  | nil => rfl
  | cons curStateID rest ih =>
    rw [Ipsm.update_graph, ih]
    unfold Ipsm.visit_edge
    split <;> simp only [queue_visit_state]

theorem queue_record_path (g : Ipsm) (state_sequence : List UInt32) : (g.record_path state_sequence).queue = g.queue := by
  unfold Ipsm.record_path
  dsimp only
  split
  · exact queue_update_graph ..
  · rfl

/-- A seed may get another annotation, but keeps its index. -/
theorem Started.set_entry (h : g.Started) {position : Nat} {old q : aware_entry} (hold : g.queue[position]? = some old)
    (hindex : q.index = old.index) : (g.set_entry position q).Started where
  toMapped := { h with
    indices := by
      have hsame : (g.queue.map aware_entry.index)[position]? = some q.index := by
        rw [List.getElem?_map, hold, Option.map_some, hindex]
      obtain ⟨hposition, hget⟩ := List.getElem?_eq_some_iff.mp hsame
      have hkeep : (g.queue.set position q).map aware_entry.index = g.queue.map aware_entry.index := by
        rw [List.map_set, ← hget, List.set_getElem_self]
      exact hkeep.trans h.indices }
  initial := h.initial

/-- The accesses to the map are in bounds. -/
theorem Started.mark_reachable (h : g.Started) {row column : Nat} (hrow : row < g.fuzzed_map_states)
    (hcolumn : column < g.fuzzed_map_qentries) :
    Holds (fun _ => False) (g.mark_reachable row column) fun g' => g'.Started ∧ column < g'.fuzzed_map_qentries := by
  obtain ⟨value, hvalue⟩ := Option.isSome_iff_exists.mp (h.table.isSome_get?_iff.mpr ⟨hrow, hcolumn⟩)
  rw [Ipsm.mark_reachable, cell_eq_get?, hvalue]
  exact .pure ⟨{ h with table := h.table.modify row column 0 }, hcolumn⟩

theorem Started.add_initial_seed (h : g.Started) (position : Nat) {index : Nat} (hindex : index < g.fuzzed_map_qentries) :
    Holds (fun _ => False) (g.add_initial_seed position index) fun g' => g'.Started ∧ index < g'.fuzzed_map_qentries := by
  have hinitial := (h.registered 0).mp h.initial
  have hrow : 0 < g.fuzzed_map_states := by
    rw [h.states]
    omega
  obtain ⟨state, hstate⟩ := Option.isSome_iff_exists.mp hinitial
  rw [Ipsm.add_initial_seed, hstate]
  exact (h.set_state hinitial _).mark_reachable hrow hindex

/-- The accesses for the last state of a region are in bounds, where the state may be a new one.
-/
theorem Started.add_region_seed (h : g.Started) (position : Nat) {index : Nat} (hindex : index < g.fuzzed_map_qentries)
    (region : region_t) :
    Holds (fun _ => False) (g.add_region_seed position index region)
      fun g' => g'.Started ∧ index < g'.fuzzed_map_qentries := by
  unfold Ipsm.add_region_seed
  cases hlast : region.codes.getLast? with
  | none => exact .pure ⟨h, hindex⟩
  | some s =>
    dsimp only
    cases hs : g.khms_states s with
    | some state =>
      have hsome : (g.khms_states s).isSome = true := by rw [hs, Option.isSome_some]
      have hset := h.set_state hsome (add_seed state position)
      exact hset.mark_reachable (hset.get_state_index_lt ((h.registered s).mpr hsome)) hindex
    | none =>
      -- the state is new, so that it is not the initial one
      have hne : s ≠ 0 := by
        rintro rfl
        have hinitial := (h.registered 0).mp h.initial
        rw [hs] at hinitial
        cases hinitial
      have hinsert := h.insert_state hne [position]
      have hmem : s ∈ (g.insert_state s [position]).state_ids := by simp [state_ids_insert_state]
      apply hinsert.mark_reachable (hinsert.get_state_index_lt hmem)
      rw [fuzzed_map_qentries_insert_state]
      exact hindex

theorem Started.add_region_seeds (h : g.Started) (position : Nat) {index : Nat} (hindex : index < g.fuzzed_map_qentries)
    (regions : List region_t) :
    Holds (fun _ => False) (add_region_seeds position index regions g)
      fun g' => g'.Started ∧ index < g'.fuzzed_map_qentries := by
  induction regions generalizing g with
  | nil => exact .pure ⟨h, hindex⟩
  | cons region regions ih =>
    apply (h.add_region_seed position hindex region).bind
    rintro g' ⟨hstarted, hlt⟩
    exact ih hstarted hlt

theorem Started.modify_state (h : g.Started) (s : UInt32) (f : state_info_t → state_info_t) :
    (g.modify_state s f).Started where
  toMapped := { h with
    registered := by
      intro r
      refine (h.registered r).trans ?_
      unfold Ipsm.modify_state
      by_cases hr : r = s
      · simp [hr]
      · simp [hr] }
  initial := h.initial

theorem Started.count_paths (h : g.Started) (khs_state_ids state_sequence : List UInt32) :
    (g.count_paths khs_state_ids state_sequence).Started := by
  induction state_sequence generalizing g khs_state_ids with
  | nil => exact h
  | cons s state_sequence ih =>
    unfold Ipsm.count_paths
    split
    · exact ih h khs_state_ids
    · exact ih (h.modify_state s _) (s :: khs_state_ids)

theorem Started.count_discovery (h : g.Started) (dry_run : Bool) (target_state_id : UInt32) :
    (g.count_discovery dry_run target_state_id).Started := by
  unfold Ipsm.count_discovery
  split
  · exact h
  · exact h.modify_state target_state_id _

theorem annotate_of_room {q : aware_entry} {x : Extraction} (hroom : ¬ q.regions.length < x.response_bytes.length) :
    ∃ annotated, q.annotate x = pure annotated ∧ annotated.index = q.index :=
  ⟨_, if_neg hroom, rfl⟩

/-- A call of `update_state_aware_variables` on a seed of the queue that has a region for
each response accesses nothing out of bounds. -/
theorem Mapped.update {call : AwareCall} {x : Extraction} {q : aware_entry} (h : g.Mapped)
    (hfresh : g.state_ids = [] → g.khs_ipsm_paths = []) (hvalid : call.Valid) (hx : call.extraction = some x)
    (hq : g.queue[call.q]? = some q) (hroom : ¬ q.regions.length < x.response_bytes.length) :
    Holds (fun _ => False) (g.update_state_aware_variables call) Started := by
  obtain ⟨hhead, hlength⟩ := hvalid x hx
  have hstarted := h.record_path hfresh hhead hlength
  have hentry : (g.record_path x.state_sequence).queue[call.q]? = some q := by rw [queue_record_path, hq]
  have hindex := hstarted.index_lt (List.mem_of_getElem? hentry)
  obtain ⟨annotated, hannotate, hsame⟩ := @annotate_of_room
    { q with unique_state_count := get_unique_state_count [] x.state_sequence } x hroom
  simp only [update_state_aware_variables, hx, hq, hannotate, pure_bind, update_seeds, bind_assoc]
  apply ((hstarted.set_entry hentry hsame).add_initial_seed call.q (hsame ▸ hindex)).bind
  rintro g' ⟨hinitial, hlt⟩
  apply (hinitial.add_region_seeds call.q hlt _).bind
  rintro g'' ⟨hregions, -⟩
  exact .pure ((hregions.count_paths [] x.state_sequence).count_discovery call.dry_run call.target_state_id)

/-- A call stops only if the seed has too few regions. -/
theorem Mapped.stops_outside_regions {call : AwareCall} (h : g.Mapped)
    (hfresh : g.state_ids = [] → g.khs_ipsm_paths = []) (hvalid : call.Valid) (hq : call.q < g.queue.length)
    {ignore : Bool} {log : List Empty} {stop : Stop AwareFailure Empty}
    (hstop : g.update_state_aware_variables call ignore log = .error stop) : stop = .fault .outside_regions := by
  cases hx : call.extraction with
  | none =>
    rw [update_state_aware_variables, hx] at hstop
    cases hstop
  | some x =>
    have hentry := List.getElem?_eq_getElem hq
    by_cases hroom : g.queue[call.q].regions.length < x.response_bytes.length
    · simp only [update_state_aware_variables, hx, hentry, aware_entry.annotate, if_pos hroom, fail_bind] at hstop
      cases hstop
      rfl
    · obtain ⟨g', hrun, -⟩ := (h.update hfresh hvalid hx hentry hroom).returns_silently ignore log
      rw [hrun] at hstop
      cases hstop

/-- What is known of the state after any number of steps: nothing has happened to it, or
the map has its dimensions. -/
def MapFits (g : Ipsm) : Prop := g = start ∨ g.Mapped ∧ (g.state_ids = [] → g.khs_ipsm_paths = [])

theorem MapFits.add_to_queue (h : g.MapFits) (q : queue_entry) : (g.add_to_queue q).MapFits := by
  right
  rcases h with rfl | ⟨hmapped, hfresh⟩
  · exact ⟨mapped_of_start q, fun _ => rfl⟩
  · refine ⟨hmapped.add_to_queue q, ?_⟩
    unfold Ipsm.add_to_queue
    dsimp only
    split <;> exact hfresh

/-- A call that returns keeps what is known of the map. -/
theorem MapFits.update {call : AwareCall} (h : g.MapFits) (hvalid : call.Valid)
    (hreturns : Returns (g.update_state_aware_variables call) g') : g'.MapFits := by
  cases hx : call.extraction with
  | none =>
    rw [update_state_aware_variables, hx] at hreturns
    rw [returns_pure hreturns]
    exact h
  | some x =>
    cases hq : g.queue[call.q]? with
    | none =>
      simp only [update_state_aware_variables, hx, hq] at hreturns
      exact absurd hreturns not_returns_fail
    | some q =>
      rcases h with rfl | ⟨hmapped, hfresh⟩
      · cases hq
      · by_cases hroom : q.regions.length < x.response_bytes.length
        · simp only [update_state_aware_variables, hx, hq, aware_entry.annotate, if_pos hroom, fail_bind] at hreturns
          exact absurd hreturns not_returns_fail
        · have hstarted := (hmapped.update hfresh hvalid hx hq hroom).of_returns hreturns
          exact .inr ⟨hstarted.toMapped, fun hids => absurd hids (List.ne_nil_of_mem hstarted.initial)⟩

end Ipsm

/-- In every state that add_to_queue and update_state_aware_variables reach, the columns
are those of the queue, the row of a registered state is there, row 0 belongs to the
initial state, and the map has all cells of its dimensions. An update of a seed accesses
no cell out of bounds: it stops only where the array of regions is too short for the
responses. -/
theorem was_fuzzed_map_is_large_enough {g : Ipsm} (hrun : Relation.ReflTransGen (AwareStep fun _ call => call.Valid) .start g) :
    g.fuzzed_map_qentries = g.queued_paths ∧
      (∀ s, (g.khms_states s).isSome = true → g.get_state_index s < g.fuzzed_map_states) ∧
      (∀ s, (g.khms_states s).isSome = true → (g.get_state_index s = 0 ↔ s = 0)) ∧
      (∀ i j, (g.cell i j).isSome = true ↔ i < g.fuzzed_map_states ∧ j < g.fuzzed_map_qentries) ∧
      (∀ s, (g.khms_states s).isSome = true → ∀ q ∈ g.queue, (g.cell (g.get_state_index s) q.index).isSome = true) ∧
      (∀ map : Ipsm, map.ExpandsSafely) ∧
      ∀ call : AwareCall, call.Valid → call.q < g.queue.length → ∀ ignore log stop,
        g.update_state_aware_variables call ignore log = .error stop → stop = .fault .outside_regions := by
  have hfits : g.MapFits := by
    induction hrun with
    | refl => exact .inl rfl
    | tail _ hstep ih =>
      cases hstep with
      | add_to_queue q => exact ih.add_to_queue q
      | update hvalid hreturns => exact ih.update hvalid hreturns
  rcases hfits with rfl | ⟨hmapped, hfresh⟩
  · have hnone : ∀ s, ¬ (Ipsm.start.khms_states s).isSome = true := fun _ => Bool.false_ne_true
    refine ⟨rfl, fun s hs => absurd hs (hnone s), fun s hs => absurd hs (hnone s), ?_,
      fun s hs => absurd hs (hnone s), Ipsm.expands_safely, ?_⟩
    · exact fun i j => (rectangular_nil 0).isSome_get?_iff
    · exact fun call _ hq => absurd hq (Nat.not_lt_zero _)
  · refine ⟨hmapped.qentries, ?_, ?_, fun i j => hmapped.table.isSome_get?_iff, ?_, Ipsm.expands_safely, ?_⟩
    · exact fun s hs => hmapped.get_state_index_lt ((hmapped.registered s).mpr hs)
    · exact fun s hs => hmapped.get_state_index_eq_zero_iff ((hmapped.registered s).mpr hs)
    · exact fun s hs q hq => hmapped.cell_isSome ((hmapped.registered s).mpr hs) hq
    · exact fun call hvalid hq ignore log stop hstop => hmapped.stops_outside_regions hfresh hvalid hq hstop

/-- After one call the map has a column for the seed and a row for the last of three states. -/
theorem map_after_one_call : ∃ g, Returns ((Ipsm.start.add_to_queue one_request).update_state_aware_variables
    (answered 0 [0, 220, 331])) g ∧ g.fuzzed_map_qentries = g.queued_paths ∧
      g.get_state_index 331 < g.fuzzed_map_states := by
  have hvalid : (answered 0 [0, 220, 331]).Valid := by
    rintro x hx
    cases hx
    decide
  have hreturns : Returns ((Ipsm.start.add_to_queue one_request).update_state_aware_variables
    (answered 0 [0, 220, 331])) _ := ⟨false, [], [], rfl⟩
  have hrun := (Relation.ReflTransGen.single (AwareStep.add_to_queue Ipsm.start one_request)).tail
    (@AwareStep.update (fun _ call => call.Valid) _ _ _ hvalid hreturns)
  have hlarge := was_fuzzed_map_is_large_enough hrun
  exact ⟨_, hreturns, hlarge.1, hlarge.2.1 331 rfl⟩

end aflnet
