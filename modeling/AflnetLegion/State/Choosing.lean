import AflnetLegion.State.Fairness

namespace aflnet

variable {score : UInt32 → UInt32 → UInt32 → UInt32} {states seeds : SelectionAlgo} {g : Ipsm} {s t : Scheduler}
  {c d : Choosing} {id : UInt32} {selected : Selected} {log : List Selected} {q : Nat}

/-- The seed has a region. -/
def Ipsm.HasRegions (g : Ipsm) (q : Nat) : Prop := ∃ entry, g.queue[q]? = some entry ∧ entry.region_count ≠ 0

theorem Ipsm.rejects_some : g.rejects (some q) = true ↔ ¬ g.HasRegions q := by
  rw [Ipsm.rejects, Ipsm.HasRegions]
  cases g.queue[q]? with
  | none => simp
  | some entry => simp

namespace Scheduler

/-- The loop as it is entered, before anything was selected. The numbers to be drawn and what
the queue looks like each time are given. -/
def choosing (s : Scheduler) (numbers : Nat → Nat) (views : Nat → QueueView) : Choosing where
  scheduler := s
  selected := none
  failure := none
  numbers := numbers
  views := views

/-- Some rounds have been made: they are selections of a run, no one of them has stopped, and
what the next one depends on is as it was. -/
structure After (score : UInt32 → UInt32 → UInt32 → UInt32) (states seeds : SelectionAlgo) (s : Scheduler) (log : List Selected)
    (c : Choosing) : Prop where
  run : Scheduling score states seeds s log c.scheduler
  counted : c.scheduler.Counted
  queue : c.scheduler.ipsm.queue = s.ipsm.queue
  ids : c.scheduler.ipsm.state_ids = s.ipsm.state_ids
  seeds_kept : ∀ id, (c.scheduler.ipsm.place id).map Prod.fst = (s.ipsm.place id).map Prod.fst
  owned : ∀ selected ∈ log, ∀ q, selected.selected_seed = some q →
    ∃ state, s.ipsm.khms_states selected.target_state_id = some state ∧ q ∈ state.seeds
  last : c.selected = log.getLast?
  no_failure : c.failure = none

/-- A seed that is selected is one of the target state. -/
theorem Round.owned (h : c.scheduler.Round states seeds selected t)
    (hkept : ∀ id, (c.scheduler.ipsm.place id).map Prod.fst = (s.ipsm.place id).map Prod.fst)
    (hq : selected.selected_seed = some q) :
    ∃ state, s.ipsm.khms_states selected.target_state_id = some state ∧ q ∈ state.seeds := by
  obtain ⟨xs, index, hplace, ⟨-, hnone, -⟩ | ⟨q', _, hmem, hsome, -⟩⟩ := h.target
  · rw [hq] at hnone
    cases hnone
  · cases hq.symm.trans hsome
    have hsame := hkept selected.target_state_id
    rw [hplace, Option.map_some] at hsame
    obtain ⟨⟨ys, index'⟩, hys, rfl⟩ := Option.map_eq_some_iff.mp hsame.symm
    obtain ⟨state, hstate, rfl, -⟩ := Ipsm.exists_of_place hys
    exact ⟨state, hstate, hmem⟩

theorem after_choosing (hs : s.Counted) (numbers : Nat → Nat) (views : Nat → QueueView) :
    After score states seeds s [] (s.choosing numbers views) :=
  ⟨.refl s, hs, rfl, rfl, fun _ => rfl, fun _ h => absurd h List.not_mem_nil, rfl, rfl⟩

/-- What one round of the loop does. -/
theorem After.body (h : After score states seeds s log c) (hs : s.Valid) (hidle : ¬ c.scheduler.Idle score states) :
    ∃ selected d, ((selection_loop score states seeds).body c).value = .yield d ∧
      After score states seeds s (log ++ [selected]) d := by
  have hc := h.run.valid hs
  obtain ⟨selected, t, numbers', hselect, hround⟩ := hc.exists_select h.counted hidle seeds (c.views 0) c.numbers
  refine ⟨selected, { scheduler := t, selected := some selected, failure := none, numbers := numbers', views := fun k => c.views (k + 1) }, ?_, ?_⟩
  · simp only [selection_loop, Traced.value_pure, hselect]
  · exact {
      run := h.run.select h.counted hselect
      counted := h.counted.of_seeds hround.seeds_kept
      queue := hround.queue.trans h.queue
      ids := hround.ids.trans h.ids
      seeds_kept := fun id => (hround.seeds_kept id).trans (h.seeds_kept id)
      owned := fun other hother q hq => by
        rcases List.mem_append.mp hother with hother | hother
        · exact h.owned other hother q hq
        · cases List.mem_singleton.mp hother
          exact hround.owned h.seeds_kept hq
      last := List.getLast?_concat.symm
      no_failure := rfl }

/-- With registered states that take turns no round stops. -/
theorem After.not_idle (h : After score .ROUND_ROBIN seeds s log c) (hids : s.ipsm.state_ids ≠ []) :
    ¬ c.scheduler.Idle score .ROUND_ROBIN := by
  rintro (hempty | ⟨hmode, -⟩)
  · exact hids (h.ids ▸ hempty)
  · cases hmode

/-- What is rejected does not change during the loop, as no region does. -/
theorem After.rejects (h : After score states seeds s log c) (selected_seed : Option Nat) :
    c.scheduler.ipsm.rejects selected_seed = s.ipsm.rejects selected_seed := by
  unfold Ipsm.rejects
  rw [h.queue]

/-- So many rounds are made, or the loop has ended before. -/
theorem rounds_or_end (hs : s.Valid) (hcounted : s.Counted) (hids : s.ipsm.state_ids ≠ []) (numbers : Nat → Nat)
    (views : Nat → QueueView) (n : Nat) :
    (∃ d log, (selection_loop score .ROUND_ROBIN seeds).Ends (s.choosing numbers views) d ∧
      (∀ more, (selection_loop score .ROUND_ROBIN seeds).after (n + more) (s.choosing numbers views) = d) ∧
      After score .ROUND_ROBIN seeds s log d ∧ (selection_loop score .ROUND_ROBIN seeds).more d = false) ∨
    ∃ d log, After score .ROUND_ROBIN seeds s log d ∧ log.length = n ∧
      (∀ selected ∈ log, s.ipsm.rejects selected.selected_seed = true) ∧
      (selection_loop score .ROUND_ROBIN seeds).more d = true ∧
      (selection_loop score .ROUND_ROBIN seeds).Reaches (s.choosing numbers views) d ∧
      ∀ more, (selection_loop score .ROUND_ROBIN seeds).after (n + more) (s.choosing numbers views) =
        (selection_loop score .ROUND_ROBIN seeds).after more d := by
  induction n with
  | zero =>
    refine .inr ⟨_, [], after_choosing hcounted numbers views, rfl, fun _ h => absurd h List.not_mem_nil, rfl, .refl _, fun more => ?_⟩
    rw [Nat.zero_add]
  | succ n ih =>
    obtain ⟨d, log, hends, hafter, hd, hstop⟩ | ⟨d, log, hd, hlength, hrejected, hmore, hreaches, hafter⟩ := ih
    · exact .inl ⟨d, log, hends, fun more => by rw [Nat.add_right_comm, Nat.add_assoc, hafter], hd, hstop⟩
    · obtain ⟨selected, e, hbody, he⟩ := hd.body hs (hd.not_idle hids)
      have hreaches' := hreaches.snoc hmore hbody
      have hafter' : ∀ more, (selection_loop score .ROUND_ROBIN seeds).after (n + 1 + more) (s.choosing numbers views) =
          (selection_loop score .ROUND_ROBIN seeds).after more e := by
        intro more
        rw [Nat.add_right_comm, Nat.add_assoc, hafter, While.after_of_yield hmore hbody]
      cases hnext : (selection_loop score .ROUND_ROBIN seeds).more e with
      | false =>
        exact .inl ⟨e, _, hreaches'.ends (.stop hnext), fun more => (hafter' more).trans (While.after_of_stop hnext more), he, hnext⟩
      | true =>
        have hlast : s.ipsm.rejects selected.selected_seed = true := by
          rw [← he.rejects, ← hnext]
          simp [selection_loop, he.last]
        refine .inr ⟨e, _, he, by rw [List.length_append, hlength]; rfl, fun other hother => ?_, hnext, hreaches', hafter'⟩
        rcases List.mem_append.mp hother with hother | hother
        · exact hrejected other hother
        · exact List.mem_singleton.mp hother ▸ hlast

/-- The seed with which the loop ends. -/
theorem After.chosen (h : After score states seeds s log c) (hstop : (selection_loop score states seeds).more c = false) :
    ∃ selected state q, c.selected = some selected ∧ selected.selected_seed = some q ∧
      s.ipsm.khms_states selected.target_state_id = some state ∧ q ∈ state.seeds ∧ s.ipsm.HasRegions q := by
  have hstop' : c.scheduler.ipsm.rejects (c.selected.bind Selected.selected_seed) = false := hstop
  rw [h.rejects] at hstop'
  cases hselected : c.selected with
  | none =>
    rw [hselected] at hstop'
    cases hstop'
  | some selected =>
    rw [hselected, Option.bind_some] at hstop'
    cases hseed : selected.selected_seed with
    | none =>
      rw [hseed] at hstop'
      cases hstop'
    | some q =>
      rw [hseed] at hstop'
      have hmem : selected ∈ log := List.mem_of_getLast? (h.last.symm.trans hselected)
      obtain ⟨state, hstate, hq⟩ := h.owned selected hmem q hseed
      refine ⟨selected, state, q, rfl, hseed, hstate, hq, ?_⟩
      by_contra hnone
      rw [Ipsm.rejects_some.mpr hnone] at hstop'
      cases hstop'

/-- As many rounds as there are states, for each seed of a state with a usable one, suffice. -/
theorem ends_within {state : state_info_t} (hstart : ∃ log, Scheduling score .ROUND_ROBIN .ROUND_ROBIN start log s)
    (hcounted : s.Counted) (hstate : s.ipsm.khms_states id = some state) (hq : q ∈ state.seeds)
    (hregions : s.ipsm.HasRegions q) (numbers : Nat → Nat) (views : Nat → QueueView) :
    ∃ d log, (selection_loop score .ROUND_ROBIN .ROUND_ROBIN).Ends (s.choosing numbers views) d ∧
      (selection_loop score .ROUND_ROBIN .ROUND_ROBIN).after (s.ipsm.state_ids.length * state.seeds.length)
        (s.choosing numbers views) = d ∧
      After score .ROUND_ROBIN .ROUND_ROBIN s log d ∧ (selection_loop score .ROUND_ROBIN .ROUND_ROBIN).more d = false := by
  obtain ⟨log', hbefore⟩ := hstart
  have hs := hbefore.valid valid_start
  have hid : id ∈ s.ipsm.state_ids := (hs.selectable.registered.mem_iff id).mpr (by rw [hstate]; rfl)
  obtain ⟨d, log, hends, hafter, hd, hstop⟩ | ⟨d, log, hd, hlength, hrejected, -, -, -⟩ :=
    rounds_or_end hs hcounted (List.ne_nil_of_mem hid) numbers views (s.ipsm.state_ids.length * state.seeds.length)
  · exact ⟨d, log, hends, hafter 0, hd, hstop⟩
  · -- every seed of the state has been selected, also the one that is not rejected
    have htimes : state.seeds.length ≤ times log id := by
      refine (states_are_selected_fairly ⟨log', hbefore⟩ hd.run (.inl rfl) hid).2 _ ?_
      rw [hd.ids, hlength, Nat.mul_comm]
    obtain ⟨⟨ys, index⟩, hys, hsame⟩ : ∃ place, d.scheduler.ipsm.place id = some place ∧ place.1 = state.seeds := by
      have hkept := hd.seeds_kept id
      rw [Ipsm.place_eq hstate, Option.map_some] at hkept
      obtain ⟨place, hplace, hfst⟩ := Option.map_eq_some_iff.mp hkept
      exact ⟨place, hplace, hfst⟩
    obtain ⟨state', hstate', rfl, -⟩ := Ipsm.exists_of_place hys
    have hcount := seeds_are_selected_fairly ⟨log', hbefore⟩ hd.run hstate hstate' (.inl rfl) 1
      (by rw [Nat.one_mul]; exact (congrArg List.length hsame).trans_le htimes) q hq
    obtain ⟨selected, hmem, hselected⟩ := List.mem_filterMap.mp (List.count_pos_iff.mp hcount)
    have hseed : selected.selected_seed = some q := by
      split at hselected
      · exact hselected
      · cases hselected
    have hreject := hrejected selected hmem
    rw [hseed] at hreject
    exact absurd hregions (Ipsm.rejects_some.mp hreject)

/-- When states and seeds take turns, the loop of the fuzzer that looks for a seed with
regions ends if and only if some registered state has one. It then ends after at most as
many rounds as there are states, times the number of seeds of such a state, and with a seed
of the target state that has regions. -/
theorem selection_ends_iff (hstart : ∃ log, Scheduling score .ROUND_ROBIN .ROUND_ROBIN start log s) (hcounted : s.Counted)
    (hids : s.ipsm.state_ids ≠ []) (numbers : Nat → Nat) (views : Nat → QueueView) :
    ((∃ d, (selection_loop score .ROUND_ROBIN .ROUND_ROBIN).Ends (s.choosing numbers views) d) ↔
      ∃ id state q, s.ipsm.khms_states id = some state ∧ q ∈ state.seeds ∧ s.ipsm.HasRegions q) ∧
    ∀ id state q, s.ipsm.khms_states id = some state → q ∈ state.seeds → s.ipsm.HasRegions q →
      ∃ d, (selection_loop score .ROUND_ROBIN .ROUND_ROBIN).Ends (s.choosing numbers views) d ∧
        (selection_loop score .ROUND_ROBIN .ROUND_ROBIN).after (s.ipsm.state_ids.length * state.seeds.length)
          (s.choosing numbers views) = d ∧ d.failure = none ∧
        ∃ selected target q', d.selected = some selected ∧ selected.selected_seed = some q' ∧
          s.ipsm.khms_states selected.target_state_id = some target ∧ q' ∈ target.seeds ∧ s.ipsm.HasRegions q' := by
  refine ⟨⟨fun ⟨d, hends⟩ => ?_, fun ⟨id, state, q, hstate, hq, hregions⟩ => ?_⟩, fun id state q hstate hq hregions => ?_⟩
  · by_contra hnone
    have hs : s.Valid := by
      obtain ⟨log', hbefore⟩ := hstart
      exact hbefore.valid valid_start
    have hgoes : ∀ c, (∃ log, After score .ROUND_ROBIN .ROUND_ROBIN s log c) →
        (selection_loop score .ROUND_ROBIN .ROUND_ROBIN).more c = true := by
      rintro c ⟨log, hc⟩
      by_contra hstop
      obtain ⟨_, state, q, -, -, hstate, hq, hregions⟩ := hc.chosen (Bool.eq_false_iff.mpr hstop)
      exact hnone ⟨_, state, q, hstate, hq, hregions⟩
    refine While.not_ends (P := fun c => ∃ log, After score .ROUND_ROBIN .ROUND_ROBIN s log c)
      ⟨[], after_choosing hcounted numbers views⟩ (fun c hc => ⟨hgoes c hc, ?_⟩) hends
    obtain ⟨log, hc⟩ := hc
    obtain ⟨selected, e, hbody, he⟩ := hc.body hs (hc.not_idle hids)
    exact ⟨e, hbody, _, he⟩
  · obtain ⟨d, _, hends, -⟩ := ends_within hstart hcounted hstate hq hregions numbers views
    exact ⟨d, hends⟩
  · obtain ⟨d, log, hends, hafter, hd, hstop⟩ := ends_within hstart hcounted hstate hq hregions numbers views
    obtain ⟨selected, target, q', hselected, hseed, htarget, hq', hregions'⟩ := hd.chosen hstop
    exact ⟨d, hends, hafter, hd.no_failure, selected, target, q', hselected, hseed, htarget, hq', hregions'⟩

/-- Of three states the last one has a seed with a region, which is found in three rounds. -/
theorem loop_over_three_states : ∃ (s : Scheduler) (d : Choosing), s.ipsm.state_ids = [0, 220, 331] ∧
    (selection_loop (fun _ _ _ => 1) .ROUND_ROBIN .ROUND_ROBIN).after 3
      (s.choosing (fun _ => 0) fun _ => ⟨fun _ => false, fun _ => 0, fun _ => false, 0, 1⟩) = d ∧ d.failure = none ∧
    ∃ selected q, d.selected = some selected ∧ selected.selected_seed = some q ∧ s.ipsm.HasRegions q := by
  obtain ⟨s, hstart, hcounted, -, -, hids, hplace, hqueue⟩ := three_states (fun _ _ _ => 1) .ROUND_ROBIN .ROUND_ROBIN
  obtain ⟨state, hstate, hseeds, -⟩ := Ipsm.exists_of_place hplace
  have hregions : s.ipsm.HasRegions 0 := by
    obtain ⟨entry, hentry, hcount⟩ := List.map_eq_singleton_iff.mp hqueue
    exact ⟨entry, by rw [hentry]; rfl, by rw [hcount]; decide⟩
  obtain ⟨-, hsoon⟩ := selection_ends_iff ⟨[], hstart⟩ hcounted (by rw [hids]; exact List.cons_ne_nil _ _) (fun _ => 0)
    fun _ => ⟨fun _ => false, fun _ => 0, fun _ => false, 0, 1⟩
  obtain ⟨d, -, hafter, hfailure, selected, -, q, hselected, hseed, -, -, hq⟩ :=
    hsoon 331 state 0 hstate (by rw [hseeds]; exact List.mem_singleton.mpr rfl) hregions
  rw [hids, hseeds] at hafter
  exact ⟨s, d, hids, hafter, hfailure, selected, q, hselected, hseed, hq⟩

end Scheduler

end aflnet
