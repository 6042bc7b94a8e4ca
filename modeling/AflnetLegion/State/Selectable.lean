import AflnetLegion.State.Scheduler

open Draws

namespace aflnet

variable {score : UInt32 → UInt32 → UInt32 → UInt32} {states seeds mode : SelectionAlgo} {view : QueueView} {g g' g'' : Ipsm}
  {s t : Scheduler} {id : UInt32} {q : Nat}

namespace Ipsm

/-- The seeds of a state and the index of the next one. -/
def place (g : Ipsm) (id : UInt32) : Option (List Nat × UInt32) :=
  (g.khms_states id).map fun state => (state.seeds, state.selected_seed_index)

theorem place_eq {state : state_info_t} (hs : g.khms_states id = some state) :
    g.place id = some (state.seeds, state.selected_seed_index) := by
  rw [place, hs, Option.map_some]

theorem exists_of_place {xs : List Nat} {index : UInt32} (h : g.place id = some (xs, index)) :
    ∃ state, g.khms_states id = some state ∧ state.seeds = xs ∧ state.selected_seed_index = index := by
  obtain ⟨state, hs, hplace⟩ := Option.map_eq_some_iff.mp h
  cases hplace
  exact ⟨state, hs, rfl, rfl⟩

/-- Only data that no selection of a seed depends on has changed: the counters and scores of
states. -/
structure Recounts (g g' : Ipsm) : Prop where
  rest : g' = { g with khms_states := g'.khms_states }
  places : g'.place = g.place

theorem Recounts.refl (g : Ipsm) : Recounts g g := ⟨rfl, rfl⟩

theorem Recounts.trans (h : Recounts g g') (h' : Recounts g' g'') : Recounts g g'' where
  rest := by
    rw [h'.rest, h.rest]
  places := h'.places.trans h.places

theorem recounts_modify_state (g : Ipsm) (id : UInt32) {f : state_info_t → state_info_t}
    (hseeds : ∀ state, (f state).seeds = state.seeds)
    (hindex : ∀ state, (f state).selected_seed_index = state.selected_seed_index) : Recounts g (g.modify_state id f) where
  rest := rfl
  places := by
    funext other
    rw [place, place]
    by_cases hother : other = id
    · subst hother
      have hself : (g.modify_state other f).khms_states other = (g.khms_states other).map f := Function.update_self ..
      rw [hself, Option.map_map]
      exact congrFun (congrArg Option.map (funext fun state => Prod.ext (hseeds state) (hindex state))) _
    · have hne : (g.modify_state id f).khms_states other = g.khms_states other := Function.update_of_ne hother ..
      rw [hne]

theorem Recounts.state_ids (h : Recounts g g') : g'.state_ids = g.state_ids := by
  rw [h.rest]

theorem Recounts.queue (h : Recounts g g') : g'.queue = g.queue := by
  rw [h.rest]

end Ipsm

namespace Scheduler

theorem recounts_score_states (score : UInt32 → UInt32 → UInt32 → UInt32) (g : Ipsm) :
    g.Recounts (score_states score g) := by
  rw [score_states]
  generalize g.state_ids = ids
  induction ids generalizing g with
  | nil => exact .refl g
  | cons id ids ih =>
    have hfirst : g.Recounts (g.modify_state id fun state =>
        { state with score := score state.fuzzs state.selected_times state.paths_discovered }) :=
      Ipsm.recounts_modify_state g id (fun _ => rfl) fun _ => rfl
    exact hfirst.trans (ih _)

theorem ensures_read_array {α : Type} {E : SelectionFailure → Prop} {xs : List α} {i : Nat} {cause : SelectionFailure}
    (h : xs.length ≤ i → E cause) : Ensures E (read_array xs i cause) fun x => xs[i]? = some x := by
  rw [read_array]
  cases hread : xs[i]? with
  | none => exact .fail (h (List.getElem?_eq_none_iff.mp hread))
  | some x => exact .pure rfl

theorem ensures_chance {E : SelectionFailure → Prop} (percent : Nat) : Ensures E (chance percent) fun _ => True := by
  have hdraw : Ensures E (UR 100) fun n => n < 100 := Ensures.below fun h => absurd h (by decide)
  exact hdraw.bind fun n _ => .pure trivial

section target

/-- No state can be selected: there is none, or all scores add up to nothing. -/
def Idle (score : UInt32 → UInt32 → UInt32 → UInt32) (mode : SelectionAlgo) (s : Scheduler) : Prop :=
  s.ipsm.state_ids = [] ∨ mode = .FAVOR ∧ 5 ≤ s.state_cycles ∧ (score_sums score s.ipsm).getLastD 0 = 0

/-- The states are selected one after the other. -/
def TakesTurns (mode : SelectionAlgo) (s : Scheduler) : Prop :=
  mode = .ROUND_ROBIN ∨ mode = .FAVOR ∧ s.state_cycles < 5

/-- The index is that of a state, or there is none yet. -/
def InRange (s : Scheduler) : Prop := s.selected_state_index = 0 ∨ s.selected_state_index < s.ipsm.state_ids.length

theorem next_state_index_inRange (h : s.selected_state_index < s.ipsm.state_ids.length) :
    s.next_state_index = 0 ∨ s.next_state_index < s.ipsm.state_ids.length := by
  unfold next_state_index
  split <;> omega

/-- What the selection of a state does: it selects a registered one, and the next one in turn
where the states take turns. -/
structure Targets (mode : SelectionAlgo) (s : Scheduler) (id : UInt32) (t : Scheduler) : Prop where
  recounts : s.ipsm.Recounts t.ipsm
  registered : s.ipsm.state_ids ≠ [] → id ∈ s.ipsm.state_ids
  in_range : t.InRange
  turn : s.TakesTurns mode → s.ipsm.state_ids[s.selected_state_index]? = some id ∧ t.selected_state_index = s.next_state_index
  cycles : t.state_cycles =
    if mode = .FAVOR ∧ s.state_cycles < 5 ∧ s.selected_state_index + 1 = s.ipsm.state_ids.length then s.state_cycles + 1
    else s.state_cycles

theorem length_state_scores_some (scores : List (Option UInt32)) : (state_scores scores).length = scores.length := by
  induction scores using List.reverseRecOn with
  | nil => rfl
  | append_singleton scores score ih =>
    rw [state_scores, List.foldl_append, List.length_append, List.length_singleton, ← ih]
    cases score with
    | none => exact List.length_append ..
    | some score => exact List.length_append ..

/-- A number below the last sum leads to a state. -/
theorem index_search_lt {sums : List UInt32} {v : Nat} (hv : v < (sums.getLastD 0).toNat) :
    index_search sums sums.length (UInt32.ofNat v) < sums.length := by
  rw [index_search, List.take_length]
  have hne : sums ≠ [] := by
    rintro rfl
    exact absurd hv (Nat.not_lt_zero v)
  refine List.findIdx_lt_length_of_exists ⟨sums.getLast hne, List.getLast_mem hne, ?_⟩
  have hlast : sums.getLastD 0 = sums.getLast hne := by
    rw [List.getLastD_eq_getLast?, List.getLast?_eq_getLast_of_ne_nil hne, Option.getD_some]
  rw [hlast] at hv
  have hsmall := (sums.getLast hne).toNat_lt
  rw [decide_eq_true_iff, UInt32.le_iff_toNat_le, UInt32.toNat_ofNat_of_lt' (Nat.lt_trans hv hsmall)]
  exact Nat.le_of_lt hv

theorem length_score_sums (score : UInt32 → UInt32 → UInt32 → UInt32) (g : Ipsm) :
    (score_sums score g).length = g.state_ids.length := by
  rw [score_sums, length_state_scores_some, List.length_map]

/-- A state is drawn by the scores, unless these add up to nothing. -/
theorem update_scores_spec (hmode : mode = .FAVOR) (hcycles : 5 ≤ s.state_cycles) (hrange : s.InRange) :
    Ensures (fun _ => s.Idle score mode) (s.update_scores_and_select_next_state score) fun r => s.Targets mode r.1 r.2 := by
  have hturn : ¬ s.TakesTurns mode := by
    rintro (h | ⟨_, h⟩)
    · rw [hmode] at h
      cases h
    · omega
  have hkeep : ∀ condition, ¬ (mode = .FAVOR ∧ s.state_cycles < 5 ∧ condition) := fun _ h => absurd h.2.1 (by omega)
  rw [update_scores_and_select_next_state]
  by_cases hempty : s.ipsm.state_ids.length = 0
  · rw [if_pos hempty]
    refine .pure ⟨.refl _, fun hne => absurd (List.eq_nil_of_length_eq_zero hempty) hne, hrange,
      fun h => absurd h hturn, (if_neg (hkeep _)).symm⟩
  · rw [if_neg hempty]
    refine Ensures.bind (Ensures.below fun hzero => .inr ⟨hmode, hcycles, UInt32.toNat_inj.mp hzero⟩) fun randV hrandV => ?_
    have hfound := index_search_lt hrandV
    rw [length_score_sums] at hfound
    refine Ensures.bind (ensures_read_array fun hout => ?_) fun result hresult => ?_
    · rw [length_score_sums] at hout
      omega
    have hrecounts := recounts_score_states score s.ipsm
    refine .pure ⟨hrecounts, fun _ => List.mem_of_getElem? hresult, ?_, fun h => absurd h hturn, (if_neg (hkeep _)).symm⟩
    rw [InRange, hrecounts.state_ids]
    exact hrange

/-- In each of the three ways a registered state is selected, unless there is none to select. -/
theorem choose_target_state_spec (hrange : s.InRange) :
    Ensures (fun _ => s.Idle score mode) (s.choose_target_state score mode) fun r => s.Targets mode r.1 r.2 := by
  have hidle : s.ipsm.state_ids.length ≤ s.selected_state_index → s.Idle score mode := by
    intro hout
    have hlength : s.ipsm.state_ids.length = 0 := hrange.elim (fun hzero => by omega) fun hlt => by omega
    exact .inl (List.eq_nil_of_length_eq_zero hlength)
  have hnext : ∀ result, s.ipsm.state_ids[s.selected_state_index]? = some result →
      s.next_state_index = 0 ∨ s.next_state_index < s.ipsm.state_ids.length :=
    fun result hresult => next_state_index_inRange (List.getElem?_eq_some_iff.mp hresult).1
  cases mode with
  | RANDOM_SELECTION =>
    have hturn : ¬ s.TakesTurns .RANDOM_SELECTION := by simp [TakesTurns]
    refine Ensures.bind (Ensures.below fun hzero => .inl (List.eq_nil_of_length_eq_zero hzero)) fun index hindex => ?_
    refine Ensures.bind (ensures_read_array fun hout => absurd hindex (Nat.not_lt.mpr hout)) fun result hresult => ?_
    exact .pure ⟨.refl _, fun _ => List.mem_of_getElem? hresult, .inr hindex, fun h => absurd h hturn, by simp⟩
  | ROUND_ROBIN =>
    refine Ensures.bind (ensures_read_array hidle) fun result hresult => ?_
    exact .pure ⟨.refl _, fun _ => List.mem_of_getElem? hresult, hnext result hresult, fun _ => ⟨hresult, rfl⟩, by simp⟩
  | FAVOR =>
    rw [choose_target_state]
    by_cases hcycles : s.state_cycles < 5
    · rw [if_pos hcycles]
      refine Ensures.bind (ensures_read_array hidle) fun result hresult => ?_
      exact .pure ⟨.refl _, fun _ => List.mem_of_getElem? hresult, hnext result hresult, fun _ => ⟨hresult, rfl⟩,
        by simp [hcycles]⟩
    · rw [if_neg hcycles]
      exact update_scores_spec rfl (Nat.not_lt.mp hcycles) hrange

end target

section seed

variable {state : state_info_t} {xs : List Nat} {index passed_cycles : Nat} {result : Option Nat} {E : SelectionFailure → Prop}

/-- Whether a foreign seed is skipped can always be decided. -/
theorem ensures_skips_foreign : Ensures E (skips_foreign view id q) fun _ => True := by
  unfold skips_foreign
  split
  · exact ensures_chance 90
  · exact .pure trivial

/-- Whether a seed was fuzzed for the state is read from the map, whose cell has to be there. -/
theorem ensures_never_fuzzed (h : Ensures E (was_fuzzed g id q) fun _ => True) :
    Ensures E (never_fuzzed g view id q) fun _ => True := by
  unfold never_fuzzed
  split
  · exact Ensures.bind h fun fuzzed _ => .pure trivial
  · exact .pure trivial

/-- The whole condition, with the same access to the map. -/
theorem ensures_skips (h : Ensures E (was_fuzzed g id q) fun _ => True) : Ensures E (skips g view id q) fun _ => True := by
  unfold skips
  refine Ensures.bind ensures_skips_foreign fun foreign _ => ?_
  split
  · exact .pure trivial
  split
  · refine Ensures.bind h fun fuzzed _ => ?_
    split
    · exact ensures_chance _
    · exact .pure trivial
  split
  · refine Ensures.bind (ensures_never_fuzzed h) fun unfuzzed _ => ?_
    split <;> exact ensures_chance _
  · exact .pure trivial

theorem advance_lt (hindex : index < xs.length) : (advance xs passed_cycles index).2 < xs.length := by
  unfold advance
  split <;> dsimp only <;> omega

/-- The loop ends with a seed of the state. -/
theorem favor_loop_spec (hskips : ∀ q ∈ xs, Ensures E (skips g view id q) fun _ => True) (hindex : index < xs.length)
    (hresult : passed_cycles < 5 ∨ ∃ q ∈ xs, result = some q) :
    Ensures E (favor_loop g view id xs passed_cycles index result) fun r => r.2 < xs.length ∧ ∃ q ∈ xs, r.1 = some q := by
  fun_induction favor_loop g view id xs passed_cycles index result with
  | case1 passed_cycles index result hpassed hread => 
    rw [List.getElem?_eq_getElem hindex] at hread
    cases hread
  | case2 passed_cycles index result hpassed q hread ih =>
    have hq : q ∈ xs := List.mem_of_getElem? hread
    refine Ensures.bind (hskips q hq) fun skipped _ => ?_
    split
    · exact ih (advance_lt hindex) (.inr ⟨q, hq, rfl⟩)
    · exact .pure ⟨advance_lt hindex, q, hq, rfl⟩
  | case3 passed_cycles index result hpassed =>
    exact .pure ⟨hindex, hresult.resolve_left hpassed⟩

/-- The seeds of a state are selected one after the other. -/
def SeedsTakeTurns (mode : SelectionAlgo) (xs : List Nat) : Prop := mode = .ROUND_ROBIN ∨ mode = .FAVOR ∧ xs.length ≤ 10

/-- What the selection of a seed does: there is none to select, or one of the state is selected
and the index of the state may move. -/
inductive Seeds (mode : SelectionAlgo) (s : Scheduler) (id : UInt32) : Option Nat → Scheduler → Prop where
  | nothing {state : state_info_t} (hs : s.ipsm.khms_states id = some state) (hempty : state.seeds = []) : Seeds mode s id none s
  | seed {state : state_info_t} {q index : Nat} (hs : s.ipsm.khms_states id = some state) (hq : q ∈ state.seeds)
      (hindex : index < state.seeds.length)
      (hturn : SeedsTakeTurns mode state.seeds → state.seeds[state.selected_seed_index.toNat]? = some q ∧
        index = (advance state.seeds 0 state.selected_seed_index.toNat).2) :
      Seeds mode s id (some q) (s.with_seed_index id state index)

/-- The seed at the index is selected, and the index goes on to the next one. -/
theorem choose_seed_round_robin_spec (hs : s.ipsm.khms_states id = some state)
    (hindex : state.selected_seed_index.toNat < state.seeds.length) :
    Ensures E (s.choose_seed_round_robin id state) fun r => s.Seeds mode id r.1 r.2 := by
  refine Ensures.bind (ensures_read_array fun hout => absurd hindex (Nat.not_lt.mpr hout)) fun q hq => ?_
  exact .pure (.seed hs (List.mem_of_getElem? hq) (advance_lt hindex) fun _ => ⟨hq, rfl⟩)

/-- Of a registered state whose seeds are in the map a seed can be selected. -/
theorem choose_seed_spec (hs : s.ipsm.khms_states id = some state)
    (hindex : state.selected_seed_index = 0 ∨ state.selected_seed_index.toNat < state.seeds.length)
    (hfuzzed : ∀ q ∈ state.seeds, Ensures E (was_fuzzed s.ipsm id q) fun _ => True) :
    Ensures E (s.choose_seed mode view id) fun r => s.Seeds mode id r.1 r.2 := by
  rw [choose_seed, hs]
  dsimp only
  by_cases hempty : state.seeds.length = 0
  · rw [if_pos hempty]
    exact .pure (.nothing hs (List.eq_nil_of_length_eq_zero hempty))
  rw [if_neg hempty]
  have hpos : 0 < state.seeds.length := Nat.pos_of_ne_zero hempty
  have hlt : state.selected_seed_index.toNat < state.seeds.length := hindex.elim (fun hzero => hzero ▸ hpos) fun h => h
  cases mode with
  | RANDOM_SELECTION =>
    refine Ensures.bind (Ensures.below fun hzero => absurd hzero hempty) fun index hindex => ?_
    refine Ensures.bind (ensures_read_array fun hout => absurd hindex (Nat.not_lt.mpr hout)) fun q hq => ?_
    exact .pure (.seed hs (List.mem_of_getElem? hq) hindex (by simp [SeedsTakeTurns]))
  | ROUND_ROBIN => exact choose_seed_round_robin_spec hs hlt
  | FAVOR =>
    dsimp only
    by_cases hmany : 10 < state.seeds.length
    · rw [if_pos hmany]
      refine Ensures.bind (favor_loop_spec (fun q hq => ensures_skips (hfuzzed q hq)) hlt (.inl (by decide))) ?_
      rintro ⟨result, index⟩ ⟨hindex, q, hq, rfl⟩
      refine .pure (.seed hs hq hindex fun hturn => ?_)
      rcases hturn with hturn | ⟨_, hfew⟩
      · cases hturn
      · omega
    · rw [if_neg hmany]
      exact choose_seed_round_robin_spec hs hlt

end seed

end Scheduler

end aflnet
