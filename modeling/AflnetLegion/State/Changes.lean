import AflnetLegion.State.Registered

open Checked

namespace aflnet.Ipsm

variable {g g' g'' : Ipsm} {s : UInt32} {q : Nat}

/-- What happens to the registered states while a call handles the seed at the position `q`. -/
inductive Change (q : Nat) : Ipsm → Ipsm → Prop where
  | other {g g' : Ipsm} (hstates : g'.khms_states = g.khms_states) (hids : g'.state_ids = g.state_ids)
      (hqueue : g'.queue.length = g.queue.length) : Change q g g'
  | insert {g g' : Ipsm} {s : UInt32} {seeds : List Nat} (hs : g.khms_states s = none) (hseeds : ∀ x ∈ seeds, x = q)
      (hstates : g'.khms_states = Function.update g.khms_states s (some (.new s seeds)))
      (hids : g'.state_ids = g.state_ids ++ [s]) (hqueue : g'.queue.length = g.queue.length) : Change q g g'
  | alter {g g' : Ipsm} {s : UInt32} {state state' : state_info_t} (hs : g.khms_states s = some state)
      (hseeds : state'.seeds = state.seeds ∨ state'.seeds = state.seeds ++ [q])
      (hindex : state'.selected_seed_index = state.selected_seed_index)
      (hstates : g'.khms_states = Function.update g.khms_states s (some state'))
      (hids : g'.state_ids = g.state_ids) (hqueue : g'.queue.length = g.queue.length) : Change q g g'

/-- The changes that a call makes one after the other. -/
abbrev Changes (q : Nat) : Ipsm → Ipsm → Prop := Relation.ReflTransGen (Change q)

theorem Changes.same (hstates : g'.khms_states = g.khms_states) (hids : g'.state_ids = g.state_ids)
    (hqueue : g'.queue.length = g.queue.length) : Changes q g g' := .single (.other hstates hids hqueue)

theorem changes_add_seed {state : state_info_t} (hs : g.khms_states s = some state) (q : Nat) :
    Changes q g (g.set_state s (add_seed state q)) :=
  .single (@Change.alter q g _ s state (add_seed state q) hs (.inr rfl) rfl rfl rfl rfl)

/-- A state is registered, with no other seed than that of the call. -/
theorem changes_insert_state (hs : g.khms_states s = none) {seeds : List Nat} (hseeds : ∀ x ∈ seeds, x = q) :
    Changes q g (g.insert_state s seeds) :=
  .single (.insert hs hseeds (khms_states_insert_state ..) (state_ids_insert_state ..)
    (congrArg List.length (queue_insert_state ..)))

theorem changes_visit_state (hs : g.Visitable s) : Changes q g (g.visit_state s) := by
  rw [visit_state]
  split
  · exact .refl
  · rename_i hnode
    have hadd : Changes q g (g.add_node s) := .same rfl rfl rfl
    have hnone : (g.add_node s).khms_states s = none := hs.resolve_left hnode
    exact hadd.trans (changes_insert_state hnone fun x hx => absurd hx List.not_mem_nil)

theorem changes_visit_edge (g : Ipsm) (prevStateID curStateID : UInt32) : Changes q g (g.visit_edge prevStateID curStateID) := by
  rw [visit_edge]
  split
  · exact .refl
  · exact .same rfl rfl rfl

/-- The states of a sequence are visited one after the other. -/
theorem changes_update_graph {prevStateID : UInt32} {rest : List UInt32} (hall : ∀ s ∈ prevStateID :: rest, g.Visitable s) :
    Changes q g (g.update_graph prevStateID rest) := by
  induction rest generalizing g prevStateID with
  | nil => exact .refl
  | cons curStateID rest ih =>
    have hprev := hall prevStateID (List.mem_cons_self ..)
    have hkeep := (keeps_visit_state hprev).2
    have hcur := hkeep curStateID (hall curStateID (List.mem_cons_of_mem _ (List.mem_cons_self ..)))
    have hkeep' := (keeps_visit_state hcur).2
    obtain ⟨hstates, -, hnodes⟩ :=
      visit_edge_same ((g.visit_state prevStateID).visit_state curStateID) prevStateID curStateID
    rw [update_graph]
    refine (((changes_visit_state hprev).trans (changes_visit_state hcur)).trans (changes_visit_edge _ prevStateID curStateID)).trans ?_
    refine ih fun s hs => ?_
    rw [Visitable, hnodes, hstates]
    exact hkeep' s (hkeep s (hall s (List.mem_cons_of_mem _ hs)))

/-- A sequence that is not interesting visits no state. -/
theorem changes_record_path {state_sequence : List UInt32}
    (hall : (is_state_sequence_interesting g.khs_ipsm_paths state_sequence).1 = true →
      ∀ s ∈ state_sequence, g.Visitable s) : Changes q g (g.record_path state_sequence) := by
  rw [record_path]
  generalize hpaths : { g with khs_ipsm_paths := (is_state_sequence_interesting g.khs_ipsm_paths state_sequence).2 } = g'
  have hsame : Changes q g g' := hpaths ▸ .same rfl rfl rfl
  split
  · rename_i hinteresting
    have hvisitable : ∀ s ∈ state_sequence, g'.Visitable s := hpaths ▸ hall hinteresting
    cases state_sequence with
    | nil => exact hsame
    | cons prevStateID rest => exact hsame.trans (changes_update_graph hvisitable)
  · exact hsame

theorem changes_mark_reachable {row column : Nat} (h : Returns (g.mark_reachable row column) g') : Changes q g g' := by
  rw [mark_reachable] at h
  split at h
  · exact absurd h not_returns_fail
  · rw [returns_pure h]
    exact .same rfl rfl rfl

theorem changes_add_initial_seed {index : Nat} (h : Returns (g.add_initial_seed q index) g') : Changes q g g' := by
  rw [add_initial_seed] at h
  split at h
  · exact absurd h not_returns_fail
  · rename_i state hs
    exact (changes_add_seed hs q).trans (changes_mark_reachable h)

/-- The last state of a region gets the seed, and is registered if it was not. -/
theorem changes_add_region_seed {index : Nat} {region : region_t} (h : Returns (g.add_region_seed q index region) g') :
    Changes q g g' := by
  rw [add_region_seed] at h
  split at h
  · rw [returns_pure h]
  · rename_i s _
    cases hs : g.khms_states s with
    | none =>
      simp only [hs] at h
      exact (changes_insert_state hs fun x hx => List.mem_singleton.mp hx).trans (changes_mark_reachable h)
    | some state =>
      simp only [hs] at h
      exact (changes_add_seed hs q).trans (changes_mark_reachable h)

theorem changes_add_region_seeds {index : Nat} {regions : List region_t}
    (h : Returns (add_region_seeds q index regions g) g') : Changes q g g' := by
  induction regions generalizing g with
  | nil =>
    rw [returns_pure h]
  | cons region regions ih =>
    obtain ⟨middle, hfirst, hrest⟩ := returns_bind h
    exact (changes_add_region_seed hfirst).trans (ih hrest)

theorem changes_modify_state (g : Ipsm) (s : UInt32) {f : state_info_t → state_info_t}
    (hseeds : ∀ state, (f state).seeds = state.seeds)
    (hindex : ∀ state, (f state).selected_seed_index = state.selected_seed_index) : Changes q g (g.modify_state s f) := by
  cases hs : g.khms_states s with
  | none =>
    refine .same ?_ rfl rfl
    rw [modify_state, hs, Option.map_none, ← hs, Function.update_eq_self]
  | some state =>
    have hstates : (g.modify_state s f).khms_states = Function.update g.khms_states s (some (f state)) := by
      rw [modify_state, hs, Option.map_some]
    exact .single (.alter hs (.inl (hseeds state)) (hindex state) hstates rfl rfl)

theorem changes_count_paths (g : Ipsm) (khs_state_ids state_sequence : List UInt32) :
    Changes q g (g.count_paths khs_state_ids state_sequence) := by
  induction state_sequence generalizing g khs_state_ids with
  | nil => exact .refl
  | cons s state_sequence ih =>
    rw [count_paths]
    split
    · exact ih g khs_state_ids
    · have hfirst : Changes q g (g.modify_state s fun state => { state with paths := state.paths + 1 }) :=
        changes_modify_state g s (fun _ => rfl) fun _ => rfl
      exact hfirst.trans (ih _ _)

theorem changes_count_discovery (g : Ipsm) (dry_run : Bool) (target_state_id : UInt32) :
    Changes q g (g.count_discovery dry_run target_state_id) := by
  rw [count_discovery]
  split
  · exact .refl
  · exact changes_modify_state g target_state_id (fun _ => rfl) fun _ => rfl

/-- A call that returns has handled a seed of the queue, or nothing. -/
theorem changes_update {call : AwareCall} (hcall : call.Consistent g)
    (h : Returns (g.update_state_aware_variables call) g') :
    g' = g ∨ (call.q < g.queue.length ∧ Changes call.q g g') := by
  rw [update_state_aware_variables] at h
  cases hx : call.extraction with
  | none =>
    rw [hx] at h
    exact .inl (returns_pure h)
  | some x =>
    rw [hx] at h
    dsimp only at h
    split at h
    · exact absurd h not_returns_fail
    · rename_i q hq
      obtain ⟨annotated, -, h⟩ := returns_bind h
      obtain ⟨seeded, hseeds, h⟩ := returns_bind h
      obtain ⟨initial, hinitial, hregions⟩ := returns_bind hseeds
      have hentry : Changes call.q (g.record_path x.state_sequence) ((g.record_path x.state_sequence).set_entry call.q annotated) :=
        .same rfl rfl (List.length_set ..)
      rw [returns_pure h]
      refine .inr ⟨(List.getElem?_eq_some_iff.mp hq).1, ?_⟩
      exact (((changes_record_path (hcall x hx)).trans hentry).trans (changes_add_initial_seed hinitial)).trans
        (((changes_add_region_seeds hregions).trans (changes_count_paths ..)).trans (changes_count_discovery ..))

end aflnet.Ipsm
