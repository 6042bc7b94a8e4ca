import AflnetLegion.State.Placed

open Draws

namespace aflnet

variable {score : UInt32 → UInt32 → UInt32 → UInt32} {states seeds mode : SelectionAlgo} {view : QueueView} {g g' : Ipsm}
  {s t u : Scheduler} {id : UInt32} {selected : Selected} {log : List Selected} {xs ys : List Nat} {index : UInt32}

namespace Scheduler

/-- Before the first selection, when neither states nor seeds have had a turn. -/
def start : Scheduler where
  ipsm := .start
  selected_state_index := 0
  state_cycles := 0

/-- What holds between two selections: every state can be selected from, and the index is that
of a state. -/
structure Valid (s : Scheduler) : Prop where
  selectable : s.ipsm.Selectable
  in_range : s.InRange

/-- `seeds_count` can count the seeds of every state. -/
def Counted (s : Scheduler) : Prop := ∀ id xs index, s.ipsm.place id = some (xs, index) → xs.length < 2 ^ 32

/-- What one round of the selection does: a state is selected and counted, and then a seed of
it. -/
def Selects (states seeds : SelectionAlgo) (s : Scheduler) (selected : Selected) (t : Scheduler) : Prop :=
  ∃ middle, s.Targets states selected.target_state_id middle ∧
    (middle.count_selection selected.target_state_id).Seeds seeds selected.target_state_id selected.selected_seed t

theorem valid_start : start.Valid where
  selectable := ⟨Ipsm.registered_start, .inl rfl, fun _ _ _ hplace => nomatch hplace⟩
  in_range := .inl rfl

theorem recounts_count_selection (s : Scheduler) (id : UInt32) : s.ipsm.Recounts (s.count_selection id).ipsm :=
  Ipsm.recounts_modify_state s.ipsm id (fun _ => rfl) fun _ => rfl

/-- The cell of a registered state and a seed is in the map. -/
theorem ensures_was_fuzzed (hg : g.Selectable) (hid : id ∈ g.state_ids) {q : Nat} (hq : q < g.queue.length)
    {E : SelectionFailure → Prop} : Ensures E (was_fuzzed g id q) fun _ => True := by
  refine Ensures.bind (ensures_read_array fun hout => absurd hq (Nat.not_lt.mpr hout)) fun entry hentry => ?_
  rcases hg.fits with rfl | ⟨hmapped, -⟩
  · cases hid
  · obtain ⟨value, hvalue⟩ := Option.isSome_iff_exists.mp (hmapped.cell_isSome hid (List.mem_of_getElem? hentry))
    rw [hvalue]
    exact .pure trivial

/-- A selection stops only if no state can be selected. -/
theorem select_spec (hs : s.Valid) :
    Ensures (fun _ => s.Idle score states) (s.select score states seeds view) fun r => s.Selects states seeds r.1 r.2 := by
  refine Ensures.bind (choose_target_state_spec hs.in_range) ?_
  rintro ⟨id, middle⟩ htargets
  have hrecounts := htargets.recounts.trans (recounts_count_selection middle id)
  have hselectable := hrecounts.selectable hs.selectable
  generalize hcounted : middle.count_selection id = counted at hrecounts hselectable
  cases hstate : counted.ipsm.khms_states id with
  | none =>
    -- only without any state there is one that is not registered
    have hempty : s.ipsm.state_ids = [] := by
      by_contra hne
      have hid := (hselectable.registered.mem_iff id).mp (hrecounts.state_ids ▸ htargets.registered hne)
      rw [hstate] at hid
      cases hid
    dsimp only
    rw [hcounted, choose_seed, hstate]
    exact Ensures.bind (P := fun _ => False) (.fail (.inl hempty)) fun r hr => hr.elim
  | some state =>
    have hid : id ∈ counted.ipsm.state_ids := (hselectable.registered.mem_iff id).mpr (by rw [hstate]; rfl)
    obtain ⟨hindex, hqueue⟩ := hselectable.placed id _ _ (Ipsm.place_eq hstate)
    have hseed : Ensures (fun _ => s.Idle score states) (counted.choose_seed seeds view id) fun r =>
        counted.Seeds seeds id r.1 r.2 :=
      choose_seed_spec hstate hindex fun q hq => ensures_was_fuzzed hselectable hid (hqueue q hq)
    dsimp only
    rw [hcounted]
    refine Ensures.bind hseed ?_
    rintro ⟨selected_seed, t⟩ ht
    exact .pure ⟨middle, htargets, hcounted ▸ ht⟩

theorem place_with_seed_index {state : state_info_t} (other : UInt32) (index : Nat) :
    (s.with_seed_index id state index).ipsm.place other =
      if other = id then some (state.seeds, UInt32.ofNat index) else s.ipsm.place other :=
  @Ipsm.place_of_update s.ipsm _ id { state with selected_seed_index := UInt32.ofNat index } rfl other

/-- What the selection of a seed does to the places of the states. -/
theorem Seeds.cases {selected_seed : Option Nat} (h : s.Seeds mode id selected_seed t) (hcounted : s.Counted) :
    t.ipsm.state_ids = s.ipsm.state_ids ∧ t.selected_state_index = s.selected_state_index ∧ t.state_cycles = s.state_cycles ∧
      (∀ other, other ≠ id → t.ipsm.place other = s.ipsm.place other) ∧
      ∃ xs index, s.ipsm.place id = some (xs, index) ∧
        ((xs = [] ∧ selected_seed = none ∧ t.ipsm.place id = some (xs, index)) ∨
          ∃ q index' , q ∈ xs ∧ selected_seed = some q ∧ index'.toNat < xs.length ∧ t.ipsm.place id = some (xs, index') ∧
            (SeedsTakeTurns mode xs → xs[index.toNat]? = some q ∧ index'.toNat = (advance xs 0 index.toNat).2)) := by
  cases h with
  | nothing hs hempty =>
    have hplace := Ipsm.place_eq hs
    exact ⟨rfl, rfl, rfl, fun _ _ => rfl, _, _, hplace, .inl ⟨hempty, rfl, hplace⟩⟩
  | @seed state q index hs hq hindex hturn =>
    have hplace := Ipsm.place_eq hs
    have hsmall := hcounted id _ _ hplace
    have htoNat : (UInt32.ofNat index).toNat = index := UInt32.toNat_ofNat_of_lt' (Nat.lt_trans hindex hsmall)
    refine ⟨rfl, rfl, rfl, fun other hother => (place_with_seed_index other index).trans (if_neg hother), _, _, hplace, .inr ?_⟩
    refine ⟨q, UInt32.ofNat index, hq, rfl, htoNat.symm ▸ hindex, (place_with_seed_index id index).trans (if_pos rfl), fun h => ?_⟩
    rw [htoNat]
    exact hturn h

/-- The selection of a seed keeps what the next selection relies on. -/
theorem Seeds.selectable {selected_seed : Option Nat} (h : s.Seeds mode id selected_seed t) (hcounted : s.Counted)
    (hs : s.ipsm.Selectable) : t.ipsm.Selectable := by
  obtain ⟨hids, -, -, hothers, xs, index, hplace, hcases⟩ := h.cases hcounted
  have hrest : t.ipsm = { s.ipsm with khms_states := t.ipsm.khms_states } := by
    cases h <;> rfl
  have hqueue : t.ipsm.queue = s.ipsm.queue := by rw [hrest]
  have hchanged : ∃ index', t.ipsm.place id = some (xs, index') ∧ (index' = 0 ∨ index'.toNat < xs.length) := by
    rcases hcases with ⟨-, -, hsame⟩ | ⟨_, index', -, -, hlt, hnew, -⟩
    · exact ⟨index, hsame, (hs.placed id xs index hplace).1⟩
    · exact ⟨index', hnew, .inr hlt⟩
  obtain ⟨index', hnew, hin⟩ := hchanged
  have hsome : ∀ other, (t.ipsm.khms_states other).isSome = (s.ipsm.khms_states other).isSome := by
    intro other
    rw [Ipsm.isSome_khms_states, Ipsm.isSome_khms_states]
    by_cases hother : other = id
    · rw [hother, hnew, hplace, Option.isSome_some, Option.isSome_some]
    · rw [hothers other hother]
  refine ⟨hs.registered.of_rest hids hsome, hs.fits.of_rest hrest hsome, fun other ys index'' hplace' => ?_⟩
  rw [hqueue]
  by_cases hother : other = id
  · rw [hother, hnew] at hplace'
    cases hplace'
    exact ⟨hin, (hs.placed id xs index hplace).2⟩
  · rw [hothers other hother] at hplace'
    exact hs.placed other ys index'' hplace'

/-- What one round does to what the next ones depend on: which state and seed it selects, and
where the two indices are after it. -/
structure Round (states seeds : SelectionAlgo) (s : Scheduler) (selected : Selected) (t : Scheduler) : Prop where
  valid : t.Valid
  ids : t.ipsm.state_ids = s.ipsm.state_ids
  queue : t.ipsm.queue = s.ipsm.queue
  registered : selected.target_state_id ∈ s.ipsm.state_ids
  turn : s.TakesTurns states → s.ipsm.state_ids[s.selected_state_index]? = some selected.target_state_id ∧
    t.selected_state_index = s.next_state_index
  cycles : t.state_cycles =
    if states = .FAVOR ∧ s.state_cycles < 5 ∧ s.selected_state_index + 1 = s.ipsm.state_ids.length then s.state_cycles + 1
    else s.state_cycles
  others : ∀ id, id ≠ selected.target_state_id → t.ipsm.place id = s.ipsm.place id
  target : ∃ xs index, s.ipsm.place selected.target_state_id = some (xs, index) ∧
    ((xs = [] ∧ selected.selected_seed = none ∧ t.ipsm.place selected.target_state_id = some (xs, index)) ∨
      ∃ q index', q ∈ xs ∧ selected.selected_seed = some q ∧ index'.toNat < xs.length ∧
        t.ipsm.place selected.target_state_id = some (xs, index') ∧
        (SeedsTakeTurns seeds xs → xs[index.toNat]? = some q ∧ index'.toNat = (advance xs 0 index.toNat).2))

theorem Selects.round (h : s.Selects states seeds selected t) (hs : s.Valid) (hcounted : s.Counted) :
    s.Round states seeds selected t := by
  obtain ⟨middle, htargets, hseeds⟩ := h
  have hrecounts := htargets.recounts.trans (recounts_count_selection middle selected.target_state_id)
  have hcounted' : (middle.count_selection selected.target_state_id).Counted := by
    intro id xs index hplace
    rw [hrecounts.places] at hplace
    exact hcounted id xs index hplace
  have hselectable := hseeds.selectable hcounted' (hrecounts.selectable hs.selectable)
  have hqueue : t.ipsm.queue = (middle.count_selection selected.target_state_id).ipsm.queue := by
    generalize selected.selected_seed = selected_seed at hseeds
    cases hseeds <;> rfl
  obtain ⟨hids, hindex, hcycles, hothers, htarget⟩ := hseeds.cases hcounted'
  rw [hrecounts.places] at hothers htarget
  have hids' := hids.trans hrecounts.state_ids
  have hregistered : selected.target_state_id ∈ s.ipsm.state_ids := by
    obtain ⟨xs, index, hplace, -⟩ := htarget
    rw [hs.selectable.registered.mem_iff, Ipsm.isSome_khms_states, hplace]
    rfl
  have hrange : t.InRange := by
    have hmiddle := htargets.in_range
    rw [InRange, htargets.recounts.state_ids] at hmiddle
    rw [InRange, hindex, hids']
    exact hmiddle
  exact {
    valid := ⟨hselectable, hrange⟩
    ids := hids'
    queue := hqueue.trans hrecounts.queue
    registered := hregistered
    turn := fun hturns => ⟨(htargets.turn hturns).1, hindex.trans (htargets.turn hturns).2⟩
    cycles := hcycles.trans htargets.cycles
    others := hothers
    target := htarget }

/-- What happens from one state to another, with the selections on the way. Between them
the state-aware variables are updated and seeds are marked as fuzzed. -/
inductive Scheduling (score : UInt32 → UInt32 → UInt32 → UInt32) (states seeds : SelectionAlgo) :
    Scheduler → List Selected → Scheduler → Prop where
  | refl (s : Scheduler) : Scheduling score states seeds s [] s
  | aware {s t : Scheduler} {log : List Selected} {g : Ipsm} (h : Scheduling score states seeds s log t)
      (hstep : AwareBetween t.ipsm g) : Scheduling score states seeds s log { t with ipsm := g }
  | fuzzed {s t : Scheduler} {log : List Selected} (h : Scheduling score states seeds s log t) (row column : Nat) :
      Scheduling score states seeds s log { t with ipsm := t.ipsm.mark_fuzzed row column }
  | select {s t u : Scheduler} {log : List Selected} {selected : Selected} {view : QueueView} {numbers numbers' : Nat → Nat}
      (h : Scheduling score states seeds s log t) (hcounted : t.Counted)
      (hselect : t.select score states seeds view numbers = .ok ((selected, u), numbers')) :
      Scheduling score states seeds s (log ++ [selected]) u

theorem Valid.select {numbers numbers' : Nat → Nat} (hs : s.Valid) (hcounted : s.Counted)
    (hselect : s.select score states seeds view numbers = .ok ((selected, t), numbers')) : s.Round states seeds selected t :=
  Selects.round ((select_spec hs).of_ok hselect) hs hcounted

/-- A step of the state-aware variables keeps the invariant. -/
theorem Valid.aware (hs : s.Valid) (hstep : AwareBetween s.ipsm g) : Valid { s with ipsm := g } where
  selectable := Ipsm.AwareBetween.selectable hstep hs.selectable
  in_range := by
    have hlength := (hstep.mono fun _ _ ok => ok.1).keeps.ids.length_le
    exact hs.in_range.imp_right fun hlt => Nat.lt_of_lt_of_le hlt hlength

/-- The invariant holds after any selections and steps. -/
theorem Scheduling.valid (h : Scheduling score states seeds s log t) (hs : s.Valid) : t.Valid := by
  induction h with
  | refl => exact hs
  | aware _ hstep ih => exact ih.aware hstep
  | fuzzed _ row column ih => exact ⟨ih.selectable.mark_fuzzed row column, ih.in_range⟩
  | select _ hcounted hselect ih => exact (ih.select hcounted hselect).valid

theorem Round.seeds_kept (h : s.Round states seeds selected t) (id : UInt32) :
    (t.ipsm.place id).map Prod.fst = (s.ipsm.place id).map Prod.fst := by
  by_cases hid : id = selected.target_state_id
  · obtain ⟨xs, index, hplace, ⟨-, -, hsame⟩ | ⟨_, index', -, -, -, hnew, -⟩⟩ := h.target
    · rw [hid, hsame, hplace]
    · rw [hid, hnew, hplace]
      rfl
  · rw [h.others id hid]

/-- Whether all seeds can be counted depends on the seeds only. -/
theorem Counted.of_seeds (h : s.Counted)
    (hseeds : ∀ id, (t.ipsm.place id).map Prod.fst = (s.ipsm.place id).map Prod.fst) : t.Counted := by
  intro id xs index hplace
  have hsame := hseeds id
  rw [hplace, Option.map_some] at hsame
  obtain ⟨⟨ys, index'⟩, hys, rfl⟩ := Option.map_eq_some_iff.mp hsame.symm
  exact h id ys index' hys

/-- Unless no state can be selected, a selection succeeds. -/
theorem Valid.exists_select (hs : s.Valid) (hcounted : s.Counted) (hidle : ¬ s.Idle score states) (seeds : SelectionAlgo)
    (view : QueueView) (numbers : Nat → Nat) : ∃ selected t numbers', s.select score states seeds view numbers = .ok ((selected, t), numbers') ∧
      s.Round states seeds selected t := by
  have hspec : Ensures (fun _ => s.Idle score states) (s.select score states seeds view) fun r => s.Selects states seeds r.1 r.2 :=
    select_spec hs
  have hresult := hspec numbers
  cases hselect : s.select score states seeds view numbers with
  | error cause =>
    rw [hselect] at hresult
    exact absurd hresult hidle
  | ok result =>
    obtain ⟨⟨selected, t⟩, numbers'⟩ := result
    exact ⟨selected, t, numbers', rfl, hs.select hcounted hselect⟩

/-- A seed has been added and has led to three states. -/
theorem three_states (score : UInt32 → UInt32 → UInt32 → UInt32) (states seeds : SelectionAlgo) :
    ∃ s, Scheduling score states seeds start [] s ∧ s.Counted ∧ s.selected_state_index = 0 ∧ s.state_cycles = 0 ∧
      s.ipsm.state_ids = [0, 220, 331] ∧ (s.ipsm.place 331 = some ([0], 0)) ∧ (s.ipsm.queue.map fun q => q.region_count) = [1] := by
  have hqueued : AwareBetween Ipsm.start (Ipsm.start.add_to_queue one_request) := .add_to_queue _ one_request
  have hok : (answered 0 [0, 220, 331]).Consistent (Ipsm.start.add_to_queue one_request) ∧ (answered 0 [0, 220, 331]).Valid := by
    refine ⟨fun _ _ _ _ _ => Or.inr rfl, ?_⟩
    rintro x hx
    cases hx
    decide
  have hreturns : Checked.Returns ((Ipsm.start.add_to_queue one_request).update_state_aware_variables
    (answered 0 [0, 220, 331])) _ := ⟨false, [], [], rfl⟩
  have hupdated := @AwareStep.update (fun g call => call.Consistent g ∧ call.Valid) _ _ _ hok hreturns
  have hstart : Scheduling score states seeds start [] start := .refl start
  have hrun := (hstart.aware hqueued).aware hupdated
  refine ⟨_, hrun, fun id xs index hplace => ?_, rfl, rfl, rfl, rfl, rfl⟩
  have hid : id ∈ [0, 220, 331] := by
    refine ((hrun.valid valid_start).selectable.registered.mem_iff id).mpr ?_
    rw [Ipsm.isSome_khms_states, hplace]
    rfl
  simp only [List.mem_cons, List.not_mem_nil, or_false] at hid
  rcases hid with rfl | rfl | rfl <;> cases hplace <;> decide

/-- Selections can follow one another. -/
theorem exists_selections (hs : s.Valid) (hcounted : s.Counted) (hids : s.ipsm.state_ids ≠ []) (n : Nat) :
    ∃ log t, Scheduling score .ROUND_ROBIN seeds s log t ∧ log.length = n ∧ t.Counted ∧
      t.ipsm.state_ids = s.ipsm.state_ids ∧ ∀ id, (t.ipsm.place id).map Prod.fst = (s.ipsm.place id).map Prod.fst := by
  induction n with
  | zero => exact ⟨[], s, .refl s, rfl, hcounted, rfl, fun _ => rfl⟩
  | succ n ih =>
    obtain ⟨log, t, hrun, hlength, hcounted', hids', hkept⟩ := ih
    have hidle : ¬ t.Idle score .ROUND_ROBIN := by
      rintro (hempty | ⟨hmode, -⟩)
      · exact hids (hids' ▸ hempty)
      · cases hmode
    obtain ⟨selected, u, _, hselect, hround⟩ := (hrun.valid hs).exists_select hcounted' hidle seeds
      ⟨fun _ => false, fun _ => 0, fun _ => false, 0, 0⟩ fun _ => 0
    refine ⟨log ++ [selected], u, hrun.select hcounted' hselect, ?_, hcounted'.of_seeds hround.seeds_kept, hround.ids.trans hids',
      fun id => (hround.seeds_kept id).trans (hkept id)⟩
    rw [List.length_append, hlength, List.length_singleton]

/-- In every run a selection reads only what is there, whichever way states and seeds are
selected and whatever numbers are drawn. It gives a registered state and a seed of it that
is in the queue, if it has any. It stops only if no state is registered or if, for the
third way, the scores add up to nothing. -/
theorem selection_is_safe (hrun : Scheduling score states seeds start log s) (hcounted : s.Counted) (view : QueueView)
    (numbers : Nat → Nat) :
    (∃ selected t numbers', s.select score states seeds view numbers = .ok ((selected, t), numbers') ∧
      selected.target_state_id ∈ s.ipsm.state_ids ∧
      ∃ state, s.ipsm.khms_states selected.target_state_id = some state ∧
        (selected.selected_seed = none ↔ state.seeds = []) ∧
        ∀ q, selected.selected_seed = some q → q ∈ state.seeds ∧ q < s.ipsm.queue.length) ∨
      s.Idle score states := by
  have hs := hrun.valid valid_start
  by_cases hidle : s.Idle score states
  · exact .inr hidle
  · obtain ⟨selected, t, numbers', hselect, hround⟩ := hs.exists_select hcounted hidle seeds view numbers
    refine .inl ⟨selected, t, numbers', hselect, hround.registered, ?_⟩
    obtain ⟨xs, index, hplace, hcases⟩ := hround.target
    obtain ⟨state, hstate, rfl, rfl⟩ := Ipsm.exists_of_place hplace
    have hqueue := (hs.selectable.placed _ _ _ hplace).2
    refine ⟨state, hstate, ?_⟩
    rcases hcases with ⟨hempty, hnone, -⟩ | ⟨q, -, hq, hsome, -⟩
    · exact ⟨iff_of_true hnone hempty, fun q hq => by rw [hnone] at hq; cases hq⟩
    · refine ⟨iff_of_false (by rw [hsome]; exact Option.some_ne_none q) (List.ne_nil_of_mem hq), fun r hr => ?_⟩
      rw [hsome] at hr
      cases hr
      exact ⟨hq, hqueue q hq⟩

theorem selection_of_three_states : ∃ (s : Scheduler) (selected : Selected) (t : Scheduler) (numbers' : Nat → Nat), s.ipsm.state_ids = [0, 220, 331] ∧
    s.select (fun _ _ _ => 1) .FAVOR .FAVOR ⟨fun _ => false, fun _ => 220, fun _ => false, 1, 2⟩ (fun n => n + 7) =
      .ok ((selected, t), numbers') ∧ selected.target_state_id ∈ s.ipsm.state_ids := by
  obtain ⟨s, hrun, hcounted, -, hcycles, hids, -⟩ := three_states (fun _ _ _ => 1) .FAVOR .FAVOR
  obtain ⟨selected, t, numbers', hselect, hmem, -⟩ | hempty | ⟨-, hmany, -⟩ :=
    selection_is_safe hrun hcounted ⟨fun _ => false, fun _ => 220, fun _ => false, 1, 2⟩ fun n => n + 7
  · exact ⟨s, selected, t, numbers', hids, hselect, hmem⟩
  · rw [hids] at hempty
    cases hempty
  · omega

section favor

variable {id : UInt32} {xs : List Nat} {passed_cycles i : Nat} {result : Option Nat}

/-- Without a pending seed no favored seed is selected, nor any seed of a small queue. -/
theorem skips_without_pending {q : Nat} (hpending : view.pending_favored = 0)
    (hseed : view.favored q = true ∨ g.queued_paths ≤ 10) :
    Ensures (fun _ => False) (skips g view id q) fun skipped => skipped = true := by
  unfold skips
  refine Ensures.bind ensures_skips_foreign fun foreign _ => ?_
  have hnot : ¬ (view.favored q = false ∧ 10 < g.queued_paths) := by
    rintro ⟨hfavored, hmany⟩
    rcases hseed with hseed | hseed
    · rw [hfavored] at hseed
      cases hseed
    · omega
  split
  · exact .pure rfl
  · rw [if_neg (not_not.mpr hpending)]
    exact .pure rfl

/-- The rounds of the loop in which every seed is skipped: the last seed of the state is the
result, and the index is back at 0. -/
theorem favor_loop_without_pending (hskips : ∀ q ∈ xs, Ensures (fun _ => False) (skips g view id q) fun skipped => skipped = true)
    (hi : i < xs.length) (hresult : passed_cycles < 5 ∨ i = 0 ∧ result = xs.getLast?) :
    Ensures (fun _ => False) (favor_loop g view id xs passed_cycles i result) fun r => r = (xs.getLast?, 0) := by
  fun_induction favor_loop g view id xs passed_cycles i result with
  | case1 passed_cycles i result hpassed hread =>
    rw [List.getElem?_eq_getElem hi] at hread
    cases hread
  | case2 passed_cycles i result hpassed q hread ih =>
    refine Ensures.bind (hskips q (List.mem_of_getElem? hread)) fun skipped hskipped => ?_
    rw [if_pos hskipped]
    refine ih (advance_lt hi) ?_
    unfold advance
    by_cases hlast : i + 1 = xs.length
    · refine .inr ⟨by rw [if_pos hlast], ?_⟩
      rw [List.getLast?_eq_getElem?, ← hlast, Nat.add_sub_cancel, hread]
    · rw [if_neg hlast]
      exact .inl hpassed
  | case3 passed_cycles i result hpassed =>
    obtain ⟨rfl, rfl⟩ := hresult.resolve_left hpassed
    exact .pure rfl

end favor

/-- The third way of selecting seeds makes no choice when there is no pending favored seed
and every seed of the state is favored, or the queue is small: whatever numbers are drawn,
each seed that the loop comes to is passed over, and the last seed of the state is selected. -/
theorem favored_seeds_are_passed_over {id : UInt32} {state : state_info_t} (hrun : Scheduling score states seeds start log s)
    (hstate : s.ipsm.khms_states id = some state) (hmany : 10 < state.seeds.length) (hpending : view.pending_favored = 0)
    (hall : ∀ q ∈ state.seeds, view.favored q = true ∨ s.ipsm.queued_paths ≤ 10) (numbers : Nat → Nat) :
    (∀ q ∈ state.seeds, ∀ drawn, ∃ drawn', skips s.ipsm view id q drawn = .ok (true, drawn')) ∧
      ∃ numbers', s.choose_seed .FAVOR view id numbers =
        .ok ((state.seeds.getLast?, s.with_seed_index id state 0), numbers') := by
  have hs := hrun.valid valid_start
  have hpos : 0 < state.seeds.length := by omega
  have hindex : state.selected_seed_index.toNat < state.seeds.length :=
    (hs.selectable.placed id _ _ (Ipsm.place_eq hstate)).1.elim (fun hzero => hzero ▸ hpos) fun hlt => hlt
  have hspec : Ensures (fun _ => False) (s.choose_seed .FAVOR view id) fun r =>
      r = (state.seeds.getLast?, s.with_seed_index id state 0) := by
    rw [choose_seed, hstate]
    dsimp only
    rw [if_neg (Nat.ne_of_gt hpos), if_pos hmany]
    refine Ensures.bind (favor_loop_without_pending (fun q hq => skips_without_pending hpending (hall q hq)) hindex
      (.inl (by decide))) ?_
    rintro _ rfl
    exact .pure rfl
  refine ⟨fun q hq drawn => ?_, ?_⟩
  · obtain ⟨skipped, drawn', hskips, rfl⟩ := (skips_without_pending hpending (hall q hq)).exists_eq drawn
    exact ⟨drawn', hskips⟩
  · obtain ⟨_, numbers', hchoice, rfl⟩ := hspec.exists_eq numbers
    exact ⟨numbers', hchoice⟩

/-- A seed with many requests, after each of which the server is in the initial state. -/
def many_requests : queue_entry := .of_regions "id:000000" (List.replicate 12 (.fresh 0 5))

/-- A call in which each of the regions ends in the initial state. -/
def answered_each : AwareCall where
  q := 0
  dry_run := false
  target_state_id := 0
  extraction := some {
    state_sequence := [0, 220], response_bytes := [1, 2, 3, 4, 5, 6, 7, 8, 9, 10, 11, 12], regional := fun _ => [0] }

/-- Thirteen references to one seed, all of which are skipped: the last one is selected. -/
theorem last_of_many_seeds : ∃ (s : Scheduler) (state : state_info_t) (numbers' : Nat → Nat),
    s.ipsm.khms_states 0 = some state ∧ state.seeds = List.replicate 13 0 ∧
      (∃ drawn', skips s.ipsm ⟨fun _ => false, fun _ => 0, fun _ => false, 0, 1⟩ 0 0 (fun n => n + 96) = .ok (true, drawn')) ∧
      s.choose_seed .FAVOR ⟨fun _ => false, fun _ => 0, fun _ => false, 0, 1⟩ 0 (fun n => n) =
        .ok ((state.seeds.getLast?, s.with_seed_index 0 state 0), numbers') := by
  have hok : answered_each.Consistent (Ipsm.start.add_to_queue many_requests) ∧ answered_each.Valid := by
    refine ⟨fun _ _ _ _ _ => Or.inr rfl, ?_⟩
    rintro x hx
    cases hx
    decide
  have hcheck : (match (Ipsm.start.add_to_queue many_requests).update_state_aware_variables answered_each false [] with
      | .ok (g, _) => decide ((g.khms_states 0).map state_info_t.seeds = some (List.replicate 13 0) ∧ g.queued_paths ≤ 10)
      | .error _ => false) = true := by decide +kernel
  cases hcall : (Ipsm.start.add_to_queue many_requests).update_state_aware_variables answered_each false [] with
  | error stop =>
    rw [hcall] at hcheck
    cases hcheck
  | ok result =>
    obtain ⟨g, warnings⟩ := result
    rw [hcall, decide_eq_true_iff] at hcheck
    obtain ⟨hseeds, hsmall⟩ := hcheck
    obtain ⟨state, hstate, hlist⟩ := Option.map_eq_some_iff.mp hseeds
    have hstart : Scheduling (fun _ _ _ => 1) .FAVOR .FAVOR start [] start := .refl start
    have hrun := (hstart.aware (.add_to_queue _ many_requests)).aware (.update hok ⟨false, [], warnings, hcall⟩)
    have hpending : QueueView.pending_favored ⟨fun _ => false, fun _ => 0, fun _ => false, 0, 1⟩ = 0 := rfl
    obtain ⟨hskips, numbers', hchoice⟩ := favored_seeds_are_passed_over hrun hstate (by rw [hlist]; decide) hpending
      (fun _ _ => .inr hsmall) fun n => n
    exact ⟨_, state, numbers', hstate, hlist, hskips 0 (by rw [hlist]; decide) _, hchoice⟩

end Scheduler

end aflnet
