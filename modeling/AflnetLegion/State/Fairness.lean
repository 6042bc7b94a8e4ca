import AflnetLegion.Lib.RoundRobin
import AflnetLegion.State.Scheduling

namespace aflnet.Scheduler

variable {score : UInt32 → UInt32 → UInt32 → UInt32} {states seeds : SelectionAlgo} {g : Ipsm} {s t u : Scheduler}
  {id id' : UInt32} {selected : Selected} {log : List Selected} {xs ys : List Nat} {index index' : UInt32}

section states

/-- Where the selection of states goes on. -/
def cursor (s : Scheduler) (h : s.InRange) : Cursor := ⟨s.selected_state_index, s.ipsm.state_ids.length, h⟩

/-- The elements of a list stay when it grows at the end. -/
theorem getElem?_of_starts {α : Type} {xs ys : List α} (h : xs <+: ys) {i : Nat} (hi : i < xs.length) : ys[i]? = xs[i]? := by
  obtain ⟨rest, rfl⟩ := h
  exact List.getElem?_append_left hi

/-- The places of the picks stay when the list grows. -/
theorem map_getElem?_of_starts {α : Type} {xs ys : List α} (h : xs <+: ys) {picks : List Nat} (hpicks : ∀ p ∈ picks, p < xs.length) :
    (picks.map fun p => ys[p]?) = picks.map fun p => xs[p]? :=
  List.map_congr_left fun p hp => getElem?_of_starts h (hpicks p hp)

theorem Scheduling.ids_start (h : Scheduling score states seeds s log t) (hs : s.Valid) :
    s.ipsm.state_ids <+: t.ipsm.state_ids := by
  induction h with
  | refl => exact List.prefix_rfl
  | aware _ hstep ih => exact ih.trans (hstep.mono fun _ _ ok => ok.1).keeps.ids
  | fuzzed _ _ _ ih => exact ih
  | select hrun hcounted hselect ih =>
    rw [((hrun.valid hs).select hcounted hselect).ids]
    exact ih

theorem TakesTurns.of_cycles_le (h : t.TakesTurns states) (hle : s.state_cycles ≤ t.state_cycles) : s.TakesTurns states :=
  h.imp_right fun ⟨hmode, hlt⟩ => ⟨hmode, Nat.lt_of_le_of_lt hle hlt⟩

/-- The states are picked in turn. -/
theorem Scheduling.picks_states (h : Scheduling score states seeds s log t) (hs : s.Valid) (hturns : t.TakesTurns states) :
    ∃ picks rounds, Cursor.Turns (s.cursor hs.in_range) picks rounds (t.cursor (h.valid hs).in_range) ∧
      (log.map fun selected => some selected.target_state_id) = picks.map fun p => t.ipsm.state_ids[p]? := by
  induction h with
  | refl => exact ⟨[], 0, .refl _, rfl⟩
  | @aware t log g hrun hstep ih =>
    obtain ⟨picks, rounds, hpicks, hlog⟩ := ih hturns
    have hstarts : t.ipsm.state_ids <+: g.state_ids := (hstep.mono fun _ _ ok => ok.1).keeps.ids
    refine ⟨picks, rounds, hpicks.grow rfl hstarts.length_le, hlog.trans ?_⟩
    exact (map_getElem?_of_starts hstarts fun p hp => hpicks.pick_lt p hp).symm
  | fuzzed _ _ _ ih => exact ih hturns
  | @select t u log selected view numbers numbers' hrun hcounted hselect ih =>
    have ht := hrun.valid hs
    have hround := ht.select hcounted hselect
    have hbefore : t.TakesTurns states := hturns.of_cycles_le (by rw [hround.cycles]; split <;> omega)
    obtain ⟨picks, rounds, hpicks, hlog⟩ := ih hbefore
    obtain ⟨hread, hnext⟩ := hround.turn hbefore
    have hlt : (t.cursor ht.in_range).index < (t.cursor ht.in_range).limit := (List.getElem?_eq_some_iff.mp hread).1
    have hcursor : u.cursor hround.valid.in_range = (t.cursor ht.in_range).next hlt :=
      Cursor.ext hnext (congrArg List.length hround.ids)
    refine ⟨_, _, hcursor ▸ hpicks.pick hlt, ?_⟩
    rw [List.map_append, List.map_append, hlog, hround.ids]
    exact congrArg (_ ++ [·]) hread.symm

/-- So often a state is selected. -/
def times (log : List Selected) (id : UInt32) : Nat := log.countP fun selected => selected.target_state_id = id

/-- How often a state is selected is how often its place is picked, as it is registered once. -/
theorem times_eq_count {ids : List UInt32} (hnodup : ids.Nodup) {picks : List Nat} {p : Nat} (hp : ids[p]? = some id)
    (hpicks : ∀ p ∈ picks, p < ids.length)
    (hlog : (log.map fun selected => some selected.target_state_id) = picks.map fun p => ids[p]?) :
    times log id = picks.count p := by
  have hcount : times log id = (log.map fun selected => some selected.target_state_id).count (some id) := by
    rw [List.count_eq_countP, List.countP_map, times]
    exact List.countP_congr fun selected _ => by simp
  rw [hcount, hlog, List.count_eq_countP, List.countP_map, List.count_eq_countP]
  refine List.countP_congr fun i hi => ?_
  have hlt := hpicks i hi
  obtain ⟨hplt, hget⟩ := List.getElem?_eq_some_iff.mp hp
  simp only [Function.comp_apply, beq_iff_eq, List.getElem?_eq_getElem hlt, Option.some_inj, ← hget]
  exact hnodup.getElem_inj_iff

/-- While the states take turns, the selections of two registered states never differ by
more than one, and as many selections as there are states in the end select each of them,
also when new states are registered all the time. -/
theorem states_are_selected_fairly (hstart : ∃ log, Scheduling score states seeds start log s)
    (hrun : Scheduling score states seeds s log t) (hturns : t.TakesTurns states) (hid : id ∈ s.ipsm.state_ids) :
    (∀ id' ∈ s.ipsm.state_ids, times log id ≤ times log id' + 1) ∧
      ∀ turns, turns * t.ipsm.state_ids.length ≤ log.length → turns ≤ times log id := by
  obtain ⟨log', hbefore⟩ := hstart
  have hs := hbefore.valid valid_start
  have ht := hrun.valid hs
  obtain ⟨picks, rounds, hpicks, hlog⟩ := hrun.picks_states hs hturns
  have hlength : log.length = picks.length := by simpa using congrArg List.length hlog
  have hplace : ∀ id ∈ s.ipsm.state_ids, ∃ p < s.ipsm.state_ids.length, times log id = picks.count p := by
    intro id hid
    obtain ⟨p, hp, hget⟩ := List.getElem_of_mem hid
    have hids : t.ipsm.state_ids[p]? = some id := by
      rw [getElem?_of_starts (hrun.ids_start hs) hp, List.getElem?_eq_getElem hp, hget]
    exact ⟨p, hp, times_eq_count ht.selectable.registered.nodup hids hpicks.pick_lt hlog⟩
  obtain ⟨p, hp, hcount⟩ := hplace id hid
  constructor
  · intro id' hid'
    obtain ⟨q, hq, hcount'⟩ := hplace id' hid'
    rw [hcount, hcount']
    exact hpicks.balanced hp hq
  · intro turns hmany
    rw [hcount]
    exact hpicks.le_count hp (hlength ▸ hmany)

end states

section seeds

/-- The seeds that are selected for a state. -/
def selected_seeds (log : List Selected) (id : UInt32) : List Nat :=
  log.filterMap fun selected => if selected.target_state_id = id then selected.selected_seed else none

/-- Where the selection of the seeds of a state goes on, as a place in a cycle. The index fits
although the number of seeds may have grown. -/
def seed_cursor (xs : List Nat) (index : UInt32) (h : index = 0 ∨ index.toNat < xs.length) : Cursor where
  index := index.toNat
  limit := xs.length
  bound := h.imp_left fun hzero => by rw [hzero]; rfl

/-- The index after an entry, which goes back to 0 at the end. -/
theorem snd_advance (xs : List Nat) (passed_cycles i : Nat) :
    (advance xs passed_cycles i).2 = if i + 1 = xs.length then 0 else i + 1 := by
  unfold advance
  split <;> rfl

/-- Seeds that take turns in a longer list did so in a shorter one. -/
theorem SeedsTakeTurns.of_starts (h : SeedsTakeTurns seeds ys) (hstarts : xs <+: ys) : SeedsTakeTurns seeds xs :=
  h.imp_right fun ⟨hmode, hfew⟩ => ⟨hmode, Nat.le_trans hstarts.length_le hfew⟩

theorem selected_seeds_concat (log : List Selected) (selected : Selected) (id : UInt32) :
    selected_seeds (log ++ [selected]) id = selected_seeds log id ++
      (if selected.target_state_id = id then selected.selected_seed else none).toList := by
  rw [selected_seeds, List.filterMap_append, selected_seeds]
  cases h : (if selected.target_state_id = id then selected.selected_seed else none) <;> simp [h]

theorem times_concat (log : List Selected) (selected : Selected) (id : UInt32) :
    times (log ++ [selected]) id = times log id + if selected.target_state_id = id then 1 else 0 := by
  simp [times, List.countP_append, List.countP_singleton]

/-- What a run makes of the place of a state: its seeds grow, each selection of it selects a
seed, and while the seeds take turns those selected are picks of a round robin. -/
structure Follows (seeds : SelectionAlgo) (xs : List Nat) (index : UInt32) (log : List Selected) (id : UInt32) (ys : List Nat)
    (index' : UInt32) : Prop where
  grown : xs <+: ys
  each : xs ≠ [] → (selected_seeds log id).length = times log id
  turns : SeedsTakeTurns seeds ys → ∀ h h', ∃ picks rounds,
    Cursor.Turns (seed_cursor xs index h) picks rounds (seed_cursor ys index' h') ∧
      (selected_seeds log id).map some = picks.map fun p => ys[p]?

/-- The seeds of a state are picked in turn. -/
theorem Scheduling.picks_seeds (h : Scheduling score states seeds s log t) (hs : s.Valid)
    (hplace : s.ipsm.place id = some (xs, index)) :
    ∃ ys index', t.ipsm.place id = some (ys, index') ∧ Follows seeds xs index log id ys index' := by
  induction h with
  | refl => exact ⟨xs, index, hplace, List.prefix_rfl, fun _ => rfl, fun _ _ _ => ⟨[], 0, .refl _, rfl⟩⟩
  | @aware t log g hrun hstep ih =>
    obtain ⟨ys, index', hys, hfollows⟩ := ih
    have hplaced := (hrun.valid hs).selectable.placed
    obtain ⟨zs, hstarts, hzs⟩ := (hstep.placed (fun _ _ ok => ok.1) hplaced).2 id ys index' hys
    refine ⟨zs, index', hzs, hfollows.grown.trans hstarts, hfollows.each, fun hturns h h' => ?_⟩
    obtain ⟨picks, rounds, hpicks, hlog⟩ := hfollows.turns (hturns.of_starts hstarts) h (hplaced id ys index' hys).1
    refine ⟨picks, rounds, hpicks.grow rfl hstarts.length_le, hlog.trans ?_⟩
    exact (map_getElem?_of_starts hstarts fun p hp => hpicks.pick_lt p hp).symm
  | fuzzed _ _ _ ih => exact ih
  | @select t u log selected view numbers numbers' hrun hcounted hselect ih =>
    obtain ⟨ys, index', hys, hfollows⟩ := ih
    have ht := hrun.valid hs
    have hround := ht.select hcounted hselect
    by_cases htarget : selected.target_state_id = id
    · obtain ⟨zs, index'', hzs, hcases⟩ := hround.target
      rw [htarget, hys] at hzs
      cases hzs
      rw [htarget] at hcases
      rcases hcases with ⟨rfl, hnone, hsame⟩ | ⟨q, index'', hq, hsome, hlt, hnew, hturn⟩
      · -- the state has no seed, and its place stays
        have hseeds : selected_seeds (log ++ [selected]) id = selected_seeds log id := by
          rw [selected_seeds_concat, hnone, ite_self, Option.toList_none, List.append_nil]
        refine ⟨[], index', hsame, hfollows.grown, fun hne => absurd (List.prefix_nil.mp hfollows.grown) hne, ?_⟩
        rw [hseeds]
        exact hfollows.turns
      · have hseeds : selected_seeds (log ++ [selected]) id = selected_seeds log id ++ [q] := by
          rw [selected_seeds_concat, if_pos htarget, hsome, Option.toList_some]
        refine ⟨ys, index'', hnew, hfollows.grown, fun hne => ?_, fun hturns h h' => ?_⟩
        · rw [hseeds, times_concat, if_pos htarget, List.length_append, hfollows.each hne, List.length_singleton]
        · have hin := (ht.selectable.placed id ys index' hys).1
          obtain ⟨picks, rounds, hpicks, hlog⟩ := hfollows.turns hturns h hin
          obtain ⟨hread, hnext⟩ := hturn hturns
          have hlt' : (seed_cursor ys index' hin).index < (seed_cursor ys index' hin).limit :=
            (List.getElem?_eq_some_iff.mp hread).1
          have hcursor : seed_cursor ys index'' h' = (seed_cursor ys index' hin).next hlt' :=
            Cursor.ext (hnext.trans (snd_advance ys 0 index'.toNat)) rfl
          refine ⟨_, _, hcursor ▸ hpicks.pick hlt', ?_⟩
          rw [hseeds, List.map_append, List.map_append, hlog]
          exact congrArg (_ ++ [·]) hread.symm
    · have hseeds : selected_seeds (log ++ [selected]) id = selected_seeds log id := by
        rw [selected_seeds_concat, if_neg htarget, Option.toList_none, List.append_nil]
      have htimes : times (log ++ [selected]) id = times log id := by
        rw [times_concat, if_neg htarget, Nat.add_zero]
      refine ⟨ys, index', (hround.others id (Ne.symm htarget)).trans hys, hfollows.grown, ?_, ?_⟩
      · rw [hseeds, htimes]
        exact hfollows.each
      · rw [hseeds]
        exact hfollows.turns

/-- While the seeds of a state take turns, as many selections of the state as it has seeds
in the end select each of its seeds, whichever way the states are selected. -/
theorem seeds_are_selected_fairly {state state' : state_info_t} (hstart : ∃ log, Scheduling score states seeds start log s)
    (hrun : Scheduling score states seeds s log t) (hstate : s.ipsm.khms_states id = some state)
    (hstate' : t.ipsm.khms_states id = some state') (hturns : SeedsTakeTurns seeds state'.seeds) :
    ∀ turns, turns * state'.seeds.length ≤ times log id → ∀ q ∈ state.seeds, turns ≤ (selected_seeds log id).count q := by
  intro turns hmany q hq
  obtain ⟨log', hbefore⟩ := hstart
  have hs := hbefore.valid valid_start
  have hplace := Ipsm.place_eq hstate
  have hplace' := Ipsm.place_eq hstate'
  obtain ⟨ys, index', hys, hfollows⟩ := hrun.picks_seeds hs hplace
  cases hplace'.symm.trans hys
  obtain ⟨picks, rounds, hpicks, hlog⟩ := hfollows.turns hturns (hs.selectable.placed _ _ _ hplace).1
    ((hrun.valid hs).selectable.placed _ _ _ hplace').1
  have hpicked : (selected_seeds log id).length = picks.length := by simpa using congrArg List.length hlog
  have hlength : picks.length = times log id := hpicked.symm.trans (hfollows.each (List.ne_nil_of_mem hq))
  obtain ⟨p, hp, hget⟩ := List.getElem_of_mem hq
  have hread : state'.seeds[p]? = some q := by
    rw [getElem?_of_starts hfollows.grown hp, List.getElem?_eq_getElem hp, hget]
  calc turns ≤ picks.count p := hpicks.le_count hp (hlength ▸ hmany)
    _ ≤ (picks.map fun p => state'.seeds[p]?).count (some q) := hread ▸ List.count_le_count_map
    _ = (selected_seeds log id).count q := by
      rw [← hlog]
      exact List.count_map_of_injective _ some (Option.some_injective _) q

end seeds

/-- In every run the selection is fair while states or seeds take turns, also when new ones
come all the time: the selections of two registered states never differ by more than one;
as many selections as there are states in the end select each state; and as many selections
of a state as it has seeds in the end select each of its seeds. -/
theorem selection_is_fair (hstart : ∃ log, Scheduling score states seeds start log s)
    (hrun : Scheduling score states seeds s log t) :
    (t.TakesTurns states → ∀ id ∈ s.ipsm.state_ids,
      (∀ id' ∈ s.ipsm.state_ids, times log id ≤ times log id' + 1) ∧
        ∀ turns, turns * t.ipsm.state_ids.length ≤ log.length → turns ≤ times log id) ∧
    ∀ id state state', s.ipsm.khms_states id = some state → t.ipsm.khms_states id = some state' →
      SeedsTakeTurns seeds state'.seeds → ∀ turns, turns * state'.seeds.length ≤ times log id →
        ∀ q ∈ state.seeds, turns ≤ (selected_seeds log id).count q :=
  ⟨fun hturns _ hid => states_are_selected_fairly hstart hrun hturns hid,
    fun _ _ _ hstate hstate' hturns => seeds_are_selected_fairly hstart hrun hstate hstate' hturns⟩

/-- Three selections among three states: each is selected once. -/
theorem three_selections_are_fair : ∃ s log t, s.ipsm.state_ids = [0, 220, 331] ∧ log.length = 3 ∧
    Scheduling (fun _ _ _ => 1) .ROUND_ROBIN .ROUND_ROBIN s log t ∧ 1 ≤ times log 220 ∧ times log 0 ≤ times log 331 + 1 := by
  obtain ⟨s, hstart, hcounted, -, -, hids, -⟩ := three_states (fun _ _ _ => 1) .ROUND_ROBIN .ROUND_ROBIN
  obtain ⟨log, t, hrun, hlength, -, hids', -⟩ := @exists_selections (fun _ _ _ => 1) .ROUND_ROBIN s
    (hstart.valid valid_start) hcounted (by rw [hids]; exact List.cons_ne_nil _ _) 3
  have hfair := (selection_is_fair ⟨[], hstart⟩ hrun).1 (.inl rfl)
  refine ⟨s, log, t, hids, hlength, hrun, (hfair 220 (by rw [hids]; decide)).2 1 ?_, (hfair 0 (by rw [hids]; decide)).1 331 ?_⟩
  · rw [hids', hids, hlength]
    decide
  · rw [hids]
    decide

end aflnet.Scheduler
