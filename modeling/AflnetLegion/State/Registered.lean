import Mathlib.Logic.Relation
import AflnetLegion.State.Ipsm

open Checked

namespace aflnet

/-- What can happen between two points of a run: a seed joins the queue, or a call of
`update_state_aware_variables` that satisfies `Ok` returns. -/
inductive AwareStep (Ok : Ipsm → AwareCall → Prop) : Ipsm → Ipsm → Prop where
  | add_to_queue (g : Ipsm) (q : queue_entry) : AwareStep Ok g (g.add_to_queue q)
  | update {g g' : Ipsm} {call : AwareCall} (ok : Ok g call) (h : Returns (g.update_state_aware_variables call) g') :
      AwareStep Ok g g'

/-- No sequence that updates the graph has a state that was registered without a node. -/
def AwareCall.Consistent (call : AwareCall) (g : Ipsm) : Prop :=
  ∀ x, call.extraction = some x → (is_state_sequence_interesting g.khs_ipsm_paths x.state_sequence).1 = true →
    ∀ s ∈ x.state_sequence, s ∈ g.nodes ∨ g.khms_states s = none

namespace Ipsm

variable {g g' g'' : Ipsm} {s : UInt32} {state state' : state_info_t} {seeds : List Nat}

/-- Every state is registered once: `state_ids` has no state twice, and it has the keys of the
hashtable. -/
structure Registered (g : Ipsm) : Prop where
  nodup : g.state_ids.Nodup
  mem_iff : ∀ s, s ∈ g.state_ids ↔ (g.khms_states s).isSome = true

/-- No state loses a seed. -/
def SeedsGrow (g g' : Ipsm) : Prop :=
  ∀ s state, g.khms_states s = some state → ∃ state', g'.khms_states s = some state' ∧ state.seeds <+: state'.seeds

/-- What no step takes back: states stay registered, and keep their places and seeds. -/
structure Keeps (g g' : Ipsm) : Prop where
  registered : g.Registered → g'.Registered
  ids : g.state_ids <+: g'.state_ids
  grow : g.SeedsGrow g'

theorem Keeps.trans (h : Keeps g g') (h' : Keeps g' g'') : Keeps g g'' where
  registered := fun hregistered => h'.registered (h.registered hregistered)
  ids := h.ids.trans h'.ids
  grow := by
    intro s state hs
    obtain ⟨state', hs', hstarts⟩ := h.grow s state hs
    obtain ⟨state'', hs'', hstarts'⟩ := h'.grow s state' hs'
    exact ⟨state'', hs'', hstarts.trans hstarts'⟩

theorem keeps_of_same (hstates : g'.khms_states = g.khms_states) (hids : g'.state_ids = g.state_ids) : Keeps g g' where
  registered := fun h => ⟨hids ▸ h.nodup, fun s => by rw [hids, hstates]; exact h.mem_iff s⟩
  ids := hids ▸ List.prefix_rfl
  grow := fun s state hs => ⟨state, hstates ▸ hs, List.prefix_rfl⟩

theorem Keeps.refl (g : Ipsm) : Keeps g g := keeps_of_same rfl rfl

theorem set_state_self (g : Ipsm) (s : UInt32) (state : state_info_t) :
    (g.set_state s state).khms_states s = some state := Function.update_self ..

theorem set_state_ne {r : UInt32} (g : Ipsm) (hne : r ≠ s) (state : state_info_t) :
    (g.set_state s state).khms_states r = g.khms_states r := Function.update_of_ne hne ..

/-- Setting a state adds its key. -/
theorem isSome_set_state (g : Ipsm) (s : UInt32) (state : state_info_t) (r : UInt32) :
    ((g.set_state s state).khms_states r).isSome = true ↔ (g.khms_states r).isSome = true ∨ r = s := by
  by_cases hr : r = s
  · simp [hr, set_state_self]
  · rw [set_state_ne g hr]
    simp [hr]

theorem keeps_set_state (hs : g.khms_states s = some state) (hseeds : state.seeds <+: state'.seeds) :
    Keeps g (g.set_state s state') where
  registered := by
    refine fun h => ⟨h.nodup, fun r => (h.mem_iff r).trans ?_⟩
    rw [isSome_set_state]
    apply (or_iff_left_of_imp _).symm
    rintro rfl
    rw [hs, Option.isSome_some]
  ids := List.prefix_rfl
  grow := by
    intro r old hold
    by_cases hr : r = s
    · subst hr
      rw [hs] at hold
      cases hold
      exact ⟨state', set_state_self .., hseeds⟩
    · exact ⟨old, (set_state_ne g hr state').trans hold, List.prefix_rfl⟩

section insert_state

variable (g s seeds)

theorem khms_states_insert_state : (g.insert_state s seeds).khms_states =
    (g.set_state s (.new s seeds)).khms_states := by
  rw [insert_state]
  dsimp only
  split <;> rfl

theorem state_ids_insert_state : (g.insert_state s seeds).state_ids = g.state_ids ++ [s] := by
  rw [insert_state]
  dsimp only
  split <;> rfl

theorem nodes_insert_state : (g.insert_state s seeds).nodes = g.nodes := by
  rw [insert_state]
  dsimp only
  split <;> rfl

theorem queue_insert_state : (g.insert_state s seeds).queue = g.queue := by
  rw [insert_state]
  dsimp only
  split <;> rfl

theorem fuzzed_map_qentries_insert_state : (g.insert_state s seeds).fuzzed_map_qentries = g.fuzzed_map_qentries := by
  rw [insert_state]
  dsimp only
  split <;> rfl

end insert_state

/-- A state that is not in the hashtable is inserted without harm. -/
theorem keeps_insert_state (hs : g.khms_states s = none) (seeds : List Nat) : Keeps g (g.insert_state s seeds) where
  registered := by
    intro h
    have hnew : s ∉ g.state_ids := by
      rw [h.mem_iff, hs]
      exact Bool.false_ne_true
    constructor
    · rw [state_ids_insert_state]
      refine List.nodup_append.mpr ⟨h.nodup, List.nodup_singleton s, ?_⟩
      rintro a ha b hb rfl
      rw [List.mem_singleton.mp hb] at ha
      exact hnew ha
    · intro r
      rw [state_ids_insert_state, khms_states_insert_state, List.mem_append, List.mem_singleton, h.mem_iff,
        isSome_set_state]
  ids := by
    rw [state_ids_insert_state]
    exact List.prefix_append ..
  grow := by
    intro r state hr
    have hne : r ≠ s := by
      rintro rfl
      rw [hs] at hr
      cases hr
    refine ⟨state, ?_, List.prefix_rfl⟩
    rw [khms_states_insert_state, set_state_ne g hne]
    exact hr

/-- The state can be visited without being registered twice. -/
def Visitable (g : Ipsm) (s : UInt32) : Prop := s ∈ g.nodes ∨ g.khms_states s = none

/-- Visiting a state that can be visited, after which the others still can be. -/
theorem keeps_visit_state (hs : g.Visitable s) :
    Keeps g (g.visit_state s) ∧ ∀ r, g.Visitable r → (g.visit_state s).Visitable r := by
  rw [visit_state]
  split
  · exact ⟨.refl g, fun r hr => hr⟩
  · rename_i hnode
    have hnone := hs.resolve_left hnode
    constructor
    · have hadd : Keeps g (g.add_node s) := keeps_of_same rfl rfl
      exact hadd.trans (keeps_insert_state (g := g.add_node s) hnone [])
    · intro r hr
      rw [Visitable, nodes_insert_state, khms_states_insert_state]
      by_cases hrs : r = s
      · exact Or.inl (by rw [hrs]; exact List.mem_append_right _ (List.mem_singleton.mpr rfl))
      · rcases hr with hr | hr
        · exact Or.inl (List.mem_append_left _ hr)
        · exact Or.inr ((set_state_ne (g.add_node s) hrs _).trans hr)

theorem visit_edge_same (g : Ipsm) (prevStateID curStateID : UInt32) :
    (g.visit_edge prevStateID curStateID).khms_states = g.khms_states ∧
      (g.visit_edge prevStateID curStateID).state_ids = g.state_ids ∧
      (g.visit_edge prevStateID curStateID).nodes = g.nodes := by
  rw [visit_edge]
  split <;> exact ⟨rfl, rfl, rfl⟩

theorem keeps_update_graph {prevStateID : UInt32} {rest : List UInt32} (hall : ∀ s ∈ prevStateID :: rest, g.Visitable s) :
    Keeps g (g.update_graph prevStateID rest) := by
  induction rest generalizing g prevStateID with
  | nil => exact .refl g
  | cons curStateID rest ih =>
    obtain ⟨hfrom, hkeep⟩ := keeps_visit_state (hall prevStateID (List.mem_cons_self ..))
    obtain ⟨hto, hkeep'⟩ := keeps_visit_state
      (hkeep curStateID (hall curStateID (List.mem_cons_of_mem _ (List.mem_cons_self ..))))
    obtain ⟨hstates, hids, hnodes⟩ :=
      visit_edge_same ((g.visit_state prevStateID).visit_state curStateID) prevStateID curStateID
    rw [update_graph]
    refine (hfrom.trans (hto.trans (keeps_of_same hstates hids))).trans (ih fun s hs => ?_)
    rw [Visitable, hnodes, hstates]
    exact hkeep' s (hkeep s (hall s (List.mem_cons_of_mem _ hs)))

theorem keeps_mark_reachable {row column : Nat} (h : Returns (g.mark_reachable row column) g') : Keeps g g' := by
  rw [mark_reachable] at h
  split at h
  · exact absurd h not_returns_fail
  · rw [returns_pure h]
    exact keeps_of_same rfl rfl

theorem prefix_add_seed (state : state_info_t) (q : Nat) : state.seeds <+: (add_seed state q).seeds :=
  List.prefix_append ..

theorem keeps_add_initial_seed {q index : Nat} (h : Returns (g.add_initial_seed q index) g') : Keeps g g' := by
  rw [add_initial_seed] at h
  split at h
  · exact absurd h not_returns_fail
  · rename_i state hs
    exact (keeps_set_state hs (prefix_add_seed state q)).trans (keeps_mark_reachable h)

/-- The last state of a region gets the seed. It is looked up in the hashtable, so it is not
registered twice. -/
theorem keeps_add_region_seed {q index : Nat} {region : region_t} (h : Returns (g.add_region_seed q index region) g') :
    Keeps g g' := by
  rw [add_region_seed] at h
  split at h
  · rw [returns_pure h]
    exact .refl g
  · rename_i s _
    cases hs : g.khms_states s with
    | none =>
      simp only [hs] at h
      exact (keeps_insert_state hs [q]).trans (keeps_mark_reachable h)
    | some state =>
      simp only [hs] at h
      exact (keeps_set_state hs (prefix_add_seed state q)).trans (keeps_mark_reachable h)

theorem keeps_add_region_seeds {q index : Nat} {regions : List region_t}
    (h : Returns (add_region_seeds q index regions g) g') : Keeps g g' := by
  induction regions generalizing g with
  | nil =>
    rw [returns_pure h]
    exact .refl g
  | cons region regions ih =>
    obtain ⟨middle, hfirst, hrest⟩ := returns_bind h
    exact (keeps_add_region_seed hfirst).trans (ih hrest)

theorem keeps_modify_state (g : Ipsm) (s : UInt32) {f : state_info_t → state_info_t}
    (hf : ∀ state, (f state).seeds = state.seeds) : Keeps g (g.modify_state s f) := by
  cases hs : g.khms_states s with
  | none =>
    refine keeps_of_same ?_ rfl
    rw [modify_state, hs, Option.map_none, ← hs, Function.update_eq_self]
  | some state =>
    have heq : g.modify_state s f = g.set_state s (f state) := by rw [modify_state, hs, Option.map_some, set_state]
    rw [heq]
    exact keeps_set_state hs (hf state ▸ List.prefix_rfl)

theorem keeps_count_paths (g : Ipsm) (khs_state_ids state_sequence : List UInt32) :
    Keeps g (g.count_paths khs_state_ids state_sequence) := by
  induction state_sequence generalizing g khs_state_ids with
  | nil => exact .refl g
  | cons s state_sequence ih =>
    rw [count_paths]
    split
    · exact ih g khs_state_ids
    · have hfirst := keeps_modify_state g s (f := fun state => { state with paths := state.paths + 1 }) fun _ => rfl
      exact hfirst.trans (ih _ _)

theorem keeps_count_discovery (g : Ipsm) (dry_run : Bool) (target_state_id : UInt32) :
    Keeps g (g.count_discovery dry_run target_state_id) := by
  rw [count_discovery]
  split
  · exact .refl g
  · exact keeps_modify_state g target_state_id fun _ => rfl

theorem keeps_update_seeds {position : Nat} {q : aware_entry} (h : Returns (g.update_seeds position q) g') : Keeps g g' := by
  obtain ⟨initial, hinitial, hregions⟩ := returns_bind h
  exact (keeps_add_initial_seed hinitial).trans (keeps_add_region_seeds hregions)

/-- A sequence that is not interesting registers nothing; the condition is about the others. -/
theorem keeps_record_path {state_sequence : List UInt32}
    (hall : (is_state_sequence_interesting g.khs_ipsm_paths state_sequence).1 = true →
      ∀ s ∈ state_sequence, g.Visitable s) : Keeps g (g.record_path state_sequence) := by
  rw [record_path]
  generalize hpaths : { g with khs_ipsm_paths := (is_state_sequence_interesting g.khs_ipsm_paths state_sequence).2 } = g'
  have hsame : Keeps g g' := hpaths ▸ keeps_of_same rfl rfl
  split
  · rename_i hinteresting
    have hvisitable : ∀ s ∈ state_sequence, g'.Visitable s := hpaths ▸ hall hinteresting
    cases state_sequence with
    | nil => exact hsame
    | cons prevStateID rest => exact hsame.trans (keeps_update_graph hvisitable)
  · exact hsame

theorem keeps_add_to_queue (g : Ipsm) (q : queue_entry) : Keeps g (g.add_to_queue q) := by
  rw [add_to_queue]
  dsimp only
  split <;> exact keeps_of_same rfl rfl

/-- After the graph has been updated, a call does no harm. -/
theorem keeps_after_record_path {call : AwareCall} {x : Extraction} (hx : call.extraction = some x)
    (h : Returns (g.update_state_aware_variables call) g') : Keeps (g.record_path x.state_sequence) g' := by
  rw [update_state_aware_variables, hx] at h
  dsimp only at h
  split at h
  · exact absurd h not_returns_fail
  · obtain ⟨annotated, _, h⟩ := returns_bind h
    obtain ⟨seeded, hseeds, h⟩ := returns_bind h
    have hentry : Keeps (g.record_path x.state_sequence) ((g.record_path x.state_sequence).set_entry call.q annotated) :=
      keeps_of_same rfl rfl
    rw [returns_pure h]
    exact (hentry.trans (keeps_update_seeds hseeds)).trans
      ((keeps_count_paths seeded [] x.state_sequence).trans (keeps_count_discovery _ _ _))

/-- One call, if its sequence is consistent with what is registered. -/
theorem keeps_update {call : AwareCall} (hcall : call.Consistent g)
    (h : Returns (g.update_state_aware_variables call) g') : Keeps g g' := by
  cases hx : call.extraction with
  | none =>
    rw [update_state_aware_variables, hx] at h
    rw [returns_pure h]
    exact .refl g
  | some x => exact (keeps_record_path (hcall x hx)).trans (keeps_after_record_path hx h)

/-- The graph and `state_ids` get the same states, in the same order. A state that the graph has
already is not added to either. -/
structure Alongside (g g' : Ipsm) (added : List UInt32) : Prop where
  ids : g'.state_ids = g.state_ids ++ added
  nodes : g'.nodes = g.nodes ++ added

theorem Alongside.trans {added added' : List UInt32} (h : Alongside g g' added) (h' : Alongside g' g'' added') :
    Alongside g g'' (added ++ added') :=
  ⟨by rw [h'.ids, h.ids, List.append_assoc], by rw [h'.nodes, h.nodes, List.append_assoc]⟩

/-- A visited state has a node afterwards, and was added to `state_ids` if it had none before.
-/
theorem alongside_visit_state (g : Ipsm) (s : UInt32) :
    ∃ added, Alongside g (g.visit_state s) added ∧ s ∈ (g.visit_state s).nodes := by
  rw [visit_state]
  split
  · rename_i hnode
    exact ⟨[], ⟨(List.append_nil _).symm, (List.append_nil _).symm⟩, hnode⟩
  · refine ⟨[s], ⟨state_ids_insert_state .., nodes_insert_state ..⟩, ?_⟩
    rw [nodes_insert_state]
    exact List.mem_append_right _ (List.mem_singleton.mpr rfl)

theorem Alongside.mem_nodes {added : List UInt32} (h : Alongside g g' added) (hs : s ∈ g.nodes) : s ∈ g'.nodes := by
  rw [h.nodes]
  exact List.mem_append_left _ hs

/-- After the update all states of a sequence with a transition are nodes. -/
theorem alongside_update_graph (g : Ipsm) (prevStateID : UInt32) (rest : List UInt32) :
    ∃ added, Alongside g (g.update_graph prevStateID rest) added ∧
      (rest ≠ [] → ∀ s ∈ prevStateID :: rest, s ∈ (g.update_graph prevStateID rest).nodes) := by
  induction rest generalizing g prevStateID with
  | nil => exact ⟨[], ⟨(List.append_nil _).symm, (List.append_nil _).symm⟩, fun hne => absurd rfl hne⟩
  | cons curStateID rest ih =>
    obtain ⟨_, hfrom, hfrom_mem⟩ := alongside_visit_state g prevStateID
    obtain ⟨_, hto, hto_mem⟩ := alongside_visit_state (g.visit_state prevStateID) curStateID
    obtain ⟨_, hids, hnodes⟩ := visit_edge_same ((g.visit_state prevStateID).visit_state curStateID) prevStateID curStateID
    have hedge : Alongside ((g.visit_state prevStateID).visit_state curStateID)
        (((g.visit_state prevStateID).visit_state curStateID).visit_edge prevStateID curStateID) [] :=
      ⟨hids.trans (List.append_nil _).symm, hnodes.trans (List.append_nil _).symm⟩
    obtain ⟨_, hrest, hrest_mem⟩ := ih
      (((g.visit_state prevStateID).visit_state curStateID).visit_edge prevStateID curStateID) curStateID
    refine ⟨_, (hfrom.trans (hto.trans hedge)).trans hrest, fun _ s hs => ?_⟩
    rw [update_graph]
    rcases List.mem_cons.mp hs with rfl | hs
    · exact hrest.mem_nodes (hedge.mem_nodes (hto.mem_nodes hfrom_mem))
    · cases rest with
      | nil =>
        rw [List.mem_singleton.mp hs]
        exact hrest.mem_nodes (hedge.mem_nodes hto_mem)
      | cons nextStateID rest => exact hrest_mem (List.cons_ne_nil _ _) s hs

/-- The condition is exact: a call that is not consistent registers a state twice. -/
theorem registered_iff_consistent (hg : g.Registered) {call : AwareCall}
    (hlen : ∀ x, call.extraction = some x → 2 ≤ x.state_sequence.length)
    (h : Returns (g.update_state_aware_variables call) g') : g'.Registered ↔ call.Consistent g := by
  constructor
  · intro hregistered x hx hinteresting s hs
    by_contra hnot
    obtain ⟨hnode, hstate⟩ := not_or.mp hnot
    have hold : s ∈ g.state_ids := (hg.mem_iff s).mpr (Option.isSome_iff_ne_none.mpr hstate)
    have hstarts := (keeps_after_record_path hx h).ids
    obtain ⟨prevStateID, curStateID, rest, hsequence⟩ : ∃ p c rest, x.state_sequence = p :: c :: rest := by
      have htwo := hlen x hx
      match x.state_sequence, htwo with
      | p :: c :: rest, _ => exact ⟨p, c, rest, rfl⟩
    rw [record_path, if_pos hinteresting, hsequence] at hstarts
    obtain ⟨added, hadded, hmem⟩ := alongside_update_graph
      { g with khs_ipsm_paths := (is_state_sequence_interesting g.khs_ipsm_paths (prevStateID :: curStateID :: rest)).2 }
      prevStateID (curStateID :: rest)
    have hnew : s ∈ added := by
      have hafter := hmem (List.cons_ne_nil _ _) s (hsequence ▸ hs)
      rw [hadded.nodes] at hafter
      exact (List.mem_append.mp hafter).resolve_left hnode
    rw [List.headD_cons, List.tail_cons, hadded.ids] at hstarts
    obtain ⟨later, hlater⟩ := hstarts
    have hnodup := hregistered.nodup
    rw [← hlater] at hnodup
    exact (List.nodup_append.mp (List.nodup_append.mp hnodup).1).2.2 s hold s hnew rfl
  · exact fun hcall => (keeps_update hcall h).registered hg

theorem registered_start : start.Registered where
  nodup := List.nodup_nil
  mem_iff := fun _ => iff_of_false List.not_mem_nil Bool.false_ne_true

end Ipsm

theorem AwareStep.keeps {g g' : Ipsm} (h : AwareStep (fun g call => call.Consistent g) g g') : g.Keeps g' := by
  cases h with
  | add_to_queue q => exact Ipsm.keeps_add_to_queue g q
  | update ok h => exact Ipsm.keeps_update ok h

theorem keeps_of_steps {g g' : Ipsm} (h : Relation.ReflTransGen (AwareStep fun g call => call.Consistent g) g g') :
    g.Keeps g' := by
  induction h with
  | refl => exact .refl g
  | tail _ hstep ih => exact ih.trans hstep.keeps

/-- In a run in which no sequence that updates the graph has a state that was registered
without a node, every state is registered once, and from any point of the run to any
later one the seeds of every state only grow. -/
theorem states_are_registered_once {g g' : Ipsm}
    (hrun : Relation.ReflTransGen (AwareStep fun g call => call.Consistent g) .start g)
    (hmore : Relation.ReflTransGen (AwareStep fun g call => call.Consistent g) g g') :
    g'.Registered ∧ g.SeedsGrow g' :=
  ⟨(keeps_of_steps (hrun.trans hmore)).registered Ipsm.registered_start, (keeps_of_steps hmore).grow⟩

/-- A seed with one request, which the server answers. -/
def one_request : queue_entry := .of_regions "id:000008" [.fresh 0 5]

/-- A call whose response, and the response of each region, is this sequence. -/
def answered (q : Nat) (state_sequence : List UInt32) : AwareCall where
  q := q
  dry_run := false
  target_state_id := 0
  extraction := some { state_sequence, response_bytes := [5], regional := fun _ => state_sequence }

/-- The second sequence has a state more, and shares one with the first. -/
theorem registered_after_two_calls : ∃ g g',
    Returns ((Ipsm.start.add_to_queue one_request).update_state_aware_variables (answered 0 [0, 220, 331])) g ∧
      Returns ((g.add_to_queue one_request).update_state_aware_variables (answered 1 [0, 220, 500, 221])) g' ∧
      g'.Registered ∧ g.SeedsGrow g' := by
  have hok : (answered 0 [0, 220, 331]).Consistent (Ipsm.start.add_to_queue one_request) := fun _ _ _ _ _ => Or.inr rfl
  have hfirst : Returns ((Ipsm.start.add_to_queue one_request).update_state_aware_variables
    (answered 0 [0, 220, 331])) _ := ⟨false, [], [], rfl⟩
  have hrun := (Relation.ReflTransGen.single (AwareStep.add_to_queue Ipsm.start one_request)).tail
    (@AwareStep.update (fun g call => call.Consistent g) _ _ _ hok hfirst)
  refine ⟨_, _, hfirst, ⟨false, [], [], rfl⟩, states_are_registered_once hrun ?_⟩
  refine (Relation.ReflTransGen.single (AwareStep.add_to_queue _ one_request)).tail
    (@AwareStep.update (fun g call => call.Consistent g) _ _ (answered 1 [0, 220, 500, 221]) ?_ ⟨false, [], [], rfl⟩)
  intro x hx _ s hs
  cases hx
  have hstates : s = 0 ∨ s = 220 ∨ s = 500 ∨ s = 221 := by simpa [answered] using hs
  rcases hstates with rfl | rfl | rfl | rfl
  · exact Or.inl (by decide)
  · exact Or.inl (by decide)
  · exact Or.inr rfl
  · exact Or.inr rfl

/-- The second sequence has the hash of the first one, so that its last state gets no
node. The third one registers that state again, which then has lost its seed. -/
theorem state_registered_twice : ∃ g g', Relation.ReflTransGen (AwareStep fun _ _ => True) .start g ∧
    Returns (g.update_state_aware_variables (answered 2 [0, 220, 230, 250])) g' ∧
    g'.state_ids = [0, 220, 331, 230, 230, 250] ∧ (g.khms_states 230).map state_info_t.seeds = some [1] ∧
    (g'.khms_states 230).map state_info_t.seeds = some [] := by
  have hqueued := Relation.ReflTransGen.single
    (@AwareStep.add_to_queue (fun _ _ => True) Ipsm.start one_request)
  have hfirst := hqueued.tail
    (@AwareStep.update _ _ _ (answered 0 [0, 220, 331]) trivial ⟨false, [], [], rfl⟩)
  have hqueued' := hfirst.tail (AwareStep.add_to_queue _ one_request)
  have hsecond := hqueued'.tail
    (@AwareStep.update _ _ _ (answered 1 [0, 220, 230]) trivial ⟨false, [], [], rfl⟩)
  exact ⟨_, _, hsecond.tail (AwareStep.add_to_queue _ one_request), ⟨false, [], [], rfl⟩, rfl, rfl, rfl⟩

end aflnet
