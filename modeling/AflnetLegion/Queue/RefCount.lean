import AflnetLegion.Lib.Count
import AflnetLegion.Lib.Loop
import AflnetLegion.Queue.TopRated

open Checked

namespace aflnet

namespace Favorites

/-- The number of slots that an entry has won. -/
def held (top_rated : Nat → Option Nat) (q : Nat) : Nat := Nat.count (fun i => top_rated i = some q) MAP_SIZE

/-- Each entry counts the slots it has won, and has a trace exactly while there are any. -/
structure RefCounted (queue : Nat → rated_entry) (top_rated : Nat → Option Nat) : Prop where
  counted : ∀ q, (queue q).tc_ref.toNat = held top_rated q
  traced : ∀ q, (queue q).trace_mini.isSome = true ↔ 0 < (queue q).tc_ref.toNat

variable {queue : Nat → rated_entry} {top_rated : Nat → Option Nat} {i q w : Nat}

/-- A slot changes hands in two steps. -/
theorem held_update_some (hi : i < MAP_SIZE) (hfree : top_rated i = none) (x : Nat) :
    held (Function.update top_rated i (some q)) x = if x = q then held top_rated x + 1 else held top_rated x := by
  unfold held
  split
  · rename_i hx
    subst hx
    refine Count.count_of_insert hi (by simp [hfree]) (by simp) ?_
    intro j hj
    rw [Function.update_of_ne hj]
  · rename_i hx
    refine Count.count_congr fun j _ => ?_
    by_cases hj : j = i
    · simp [hj, hfree, Ne.symm hx]
    · rw [Function.update_of_ne hj]

theorem held_update_none (hi : i < MAP_SIZE) (hwin : top_rated i = some w) (x : Nat) :
    held top_rated x = if x = w then held (Function.update top_rated i none) x + 1
      else held (Function.update top_rated i none) x := by
  have hback := held_update_some (q := w) hi (Function.update_self i none top_rated) x
  rwa [Function.update_idem, ← hwin, Function.update_eq_self] at hback

theorem held_le : held top_rated q ≤ MAP_SIZE := Nat.count_le _

/-- While a slot is free, nobody holds all of them, so the counter has room. -/
theorem held_lt_of_free (hi : i < MAP_SIZE) (hfree : top_rated i = none) (q : Nat) : held top_rated q < MAP_SIZE := by
  have hnext := held_update_some (q := q) hi hfree q
  rw [if_pos rfl] at hnext
  have hle : held (Function.update top_rated i (some q)) q ≤ MAP_SIZE := held_le
  omega

/-- The previous winner loses a reference and, with the last one, its trace. -/
theorem RefCounted.release (h : RefCounted queue top_rated) (hi : i < MAP_SIZE) (hwin : top_rated i = some w) :
    RefCounted (Function.update queue w (queue w).release) (Function.update top_rated i none) := by
  have hheld := held_update_none hi hwin
  have hw := hheld w
  rw [if_pos rfl, ← h.counted] at hw
  have hdec : (queue w).release.tc_ref.toNat = held (Function.update top_rated i none) w := by
    change ((queue w).tc_ref - 1).toNat = _
    rw [Count.toNat_decrement (by omega), hw, Nat.add_sub_cancel]
  have htrace : (queue w).trace_mini.isSome = true := (h.traced w).mpr (by omega)
  constructor
  · intro x
    by_cases hx : x = w
    · rw [hx, Function.update_self, hdec]
    · rw [Function.update_of_ne hx, h.counted, hheld x, if_neg hx]
  · intro x
    by_cases hx : x = w
    · rw [hx, Function.update_self]
      by_cases hzero : (queue w).tc_ref - 1 = 0
      · simp [rated_entry.release, hzero]
      · have hpos : 0 < ((queue w).tc_ref - 1).toNat :=
          Nat.pos_of_ne_zero fun h => hzero (UInt32.toNat_inj.mp h)
        simpa [rated_entry.release, hzero, htrace] using hpos
    · rw [Function.update_of_ne hx]
      exact h.traced x

/-- The new winner of a free slot gets a reference and has a trace then. -/
theorem RefCounted.win (h : RefCounted queue top_rated) (hi : i < MAP_SIZE) (hfree : top_rated i = none)
    (trace_bits : Nat → UInt8) :
    RefCounted (Function.update queue q ((queue q).retain trace_bits)) (Function.update top_rated i (some q)) := by
  have hheld := held_update_some (q := q) hi hfree
  have hinc : ((queue q).retain trace_bits).tc_ref.toNat = (queue q).tc_ref.toNat + 1 := by
    refine Count.toNat_increment ?_
    have hlt := held_lt_of_free hi hfree q
    rw [← h.counted q] at hlt
    exact Nat.lt_trans (Nat.succ_lt_succ hlt) (by decide)
  constructor
  · intro x
    by_cases hx : x = q
    · rw [hx, Function.update_self, hinc, hheld, if_pos rfl, h.counted]
    · rw [Function.update_of_ne hx, h.counted, hheld, if_neg hx]
  · intro x
    by_cases hx : x = q
    · rw [hx, Function.update_self, hinc]
      refine iff_of_true ?_ (Nat.succ_pos _)
      cases htrace : (queue q).trace_mini with
      | none => simp [rated_entry.retain, htrace]
      | some bits => simp [rated_entry.retain, htrace]
    · rw [Function.update_of_ne hx]
      exact h.traced x

/-- An entry may take a slot from itself, and its trace may be freed and made again. -/
theorem RefCounted.update_slot {s : Favorites} (h : RefCounted s.queue s.top_rated) (hi : i < MAP_SIZE) (q : Nat)
    (trace_bits : Nat → UInt8) :
    RefCounted (Favorites.update_slot q trace_bits s i).queue (Favorites.update_slot q trace_bits s i).top_rated := by
  unfold Favorites.update_slot
  split
  · exact h
  · split
    · rename_i hfree
      exact h.win hi hfree trace_bits
    · rename_i w hwin
      split
      · exact h
      · have hrelease := h.release hi hwin
        have hwon := hrelease.win (q := q) hi (Function.update_self i none s.top_rated) trace_bits
        rwa [Function.update_idem] at hwon

/-- What each slot keeps, the whole loop keeps. -/
theorem update_bitmap_score_induction {P : Favorites → Prop} {s : Favorites} (q : Nat) (trace_bits : Nat → UInt8)
    (h : P s) (hslot : ∀ t i, i < MAP_SIZE → P t → P (Favorites.update_slot q trace_bits t i)) :
    P (s.update_bitmap_score q trace_bits) :=
  List.foldlRecOn _ _ h fun t ht i hi => hslot t i (List.mem_range.mp hi) ht

/-- A trace with a single slot. -/
theorem update_bitmap_score_single (hi : i < MAP_SIZE) {trace_bits : Nat → UInt8}
    (htrace : ∀ j, j ≠ i → trace_bits j = 0) (s : Favorites) (q : Nat) :
    s.update_bitmap_score q trace_bits = Favorites.update_slot q trace_bits s i := by
  unfold Favorites.update_bitmap_score
  rw [List.foldl_eq_foldlM]
  refine congrArg Id.run (Loop.foldlM_range_single (P := fun _ => True) hi trivial trivial ?_ rfl)
  intro j t _ hj
  rw [update_slot, if_pos (htrace j hj)]

/-- The whole loop keeps the counters right, whatever the trace hits. -/
theorem RefCounted.update_bitmap_score {s : Favorites} (h : RefCounted s.queue s.top_rated) (q : Nat)
    (trace_bits : Nat → UInt8) :
    RefCounted (s.update_bitmap_score q trace_bits).queue (s.update_bitmap_score q trace_bits).top_rated :=
  update_bitmap_score_induction (P := fun t => RefCounted t.queue t.top_rated) q trace_bits h
    fun _ _ hi ht => ht.update_slot hi q trace_bits

/-- Neither the references nor the traces differ, and the winners are the same. -/
structure SameTraces (s t : Favorites) : Prop where
  queued_paths : t.queued_paths = s.queued_paths
  top_rated : t.top_rated = s.top_rated
  tc_ref : ∀ q, (t.queue q).tc_ref = (s.queue q).tc_ref
  trace_mini : ∀ q, (t.queue q).trace_mini = (s.queue q).trace_mini

theorem SameTraces.refl (s : Favorites) : s.SameTraces s := ⟨rfl, rfl, fun _ => rfl, fun _ => rfl⟩

theorem SameTraces.trans {s t u : Favorites} (hst : s.SameTraces t) (htu : t.SameTraces u) : s.SameTraces u where
  queued_paths := htu.queued_paths.trans hst.queued_paths
  top_rated := htu.top_rated.trans hst.top_rated
  tc_ref := fun q => (htu.tc_ref q).trans (hst.tc_ref q)
  trace_mini := fun q => (htu.trace_mini q).trans (hst.trace_mini q)

/-- The counters are right as long as neither references nor traces change. -/
theorem RefCounted.same {s t : Favorites} (h : RefCounted s.queue s.top_rated) (hst : s.SameTraces t) :
    RefCounted t.queue t.top_rated where
  counted := fun q => by rw [hst.tc_ref, hst.top_rated, h.counted]
  traced := fun q => by rw [hst.tc_ref, hst.trace_mini, h.traced]

/-- The winner of a slot has a trace. -/
theorem RefCounted.trace_of_slot (h : RefCounted queue top_rated) (hi : i < MAP_SIZE) (hwin : top_rated i = some w) :
    (queue w).trace_mini.isSome = true := by
  rw [h.traced, h.counted, held_update_none hi hwin, if_pos rfl]
  exact Nat.succ_pos _

theorem sameTraces_modify (s : Favorites) (q : Nat) {f : rated_entry → rated_entry}
    (href : ∀ e, (f e).tc_ref = e.tc_ref) (htrace : ∀ e, (f e).trace_mini = e.trace_mini) :
    s.SameTraces (s.modify q f) := by
  refine ⟨rfl, rfl, fun x => ?_, fun x => ?_⟩
  · by_cases hx : x = q
    · simp [modify, hx, href]
    · simp [modify, hx]
  · by_cases hx : x = q
    · simp [modify, hx, htrace]
    · simp [modify, hx]

theorem sameTraces_reset_favored (s : Favorites) : s.SameTraces s.reset_favored := by
  refine ⟨rfl, rfl, fun q => ?_, fun q => ?_⟩
  · rw [reset_favored_queue]
    split <;> rfl
  · rw [reset_favored_queue]
    split <;> rfl

theorem sameTraces_cull_slot {c d : Bitmap × Favorites} (h : Returns (cull_slot c i) d) : c.2.SameTraces d.2 := by
  unfold cull_slot at h
  split at h
  · rw [returns_pure h]
    exact .refl _
  · rename_i w hwin
    split at h
    · obtain ⟨trace_mini, _, h⟩ := returns_bind h
      obtain ⟨t, ht, h⟩ := returns_bind h
      unfold favor at ht
      obtain ⟨pending, _, ht⟩ := returns_bind ht
      rw [returns_pure h, returns_pure ht]
      exact { sameTraces_modify c.2 w (f := rated_entry.as_favored) (fun _ => rfl) (fun _ => rfl) with }
    · rw [returns_pure h]
      exact .refl _

theorem sameTraces_cull_queue {s t : Favorites} (h : Returns s.cull_queue t) : s.SameTraces t := by
  unfold cull_queue at h
  split at h
  · rw [returns_pure h]
    exact .refl s
  · obtain ⟨c, hc, h⟩ := returns_bind h
    rw [returns_pure h]
    refine s.sameTraces_reset_favored.trans ?_
    exact returns_foldlM_range (I := fun _ c => s.reset_favored.SameTraces c.2) (.refl _)
      (fun _ _ _ _ hsame hstep => hsame.trans (sameTraces_cull_slot hstep)) hc

/-- The loop of `cull_queue` finds the trace of each winner. -/
theorem cull_queue_avoids {s : Favorites} (h : RefCounted s.queue s.top_rated) :
    Avoids .invalid_pointer s.cull_queue := by
  unfold cull_queue
  split
  · exact .pure s
  · refine Avoids.bind ?_ fun c _ => .pure c.2
    refine Avoids.foldlM_range (I := fun _ c => s.SameTraces c.2) s.sameTraces_reset_favored
      (fun _ _ _ _ hsame hstep => hsame.trans (sameTraces_cull_slot hstep)) ?_
    intro i hi c hsame
    have hc := h.same hsame
    unfold cull_slot
    split
    · exact .pure c
    · rename_i w hwin
      split
      · obtain ⟨trace_mini, htrace⟩ := Option.isSome_iff_exists.mp (hc.trace_of_slot hi hwin)
        unfold get_trace_mini favor is_pending get_was_fuzzed
        rw [htrace]
        refine (Avoids.pure trace_mini).bind fun _ _ => ?_
        refine Avoids.bind (Avoids.bind ?_ fun _ _ => .pure _) fun _ _ => .pure _
        split
        · refine Avoids.bind ?_ fun _ _ => .pure _
          split
          · exact .fail nofun
          · exact .pure _
        · exact .pure _
      · exact .pure c

/-- What holds of the references in every state: they are counted, and each winner is in the
queue, too. -/
structure Referenced (s : Favorites) : Prop extends RefCounted s.queue s.top_rated where
  winners : ∀ i w, s.top_rated i = some w → w < s.queued_paths

/-- What holds of the references depends on references, traces and winners. -/
theorem Referenced.same {s t : Favorites} (h : s.Referenced) (hst : s.SameTraces t) : t.Referenced where
  toRefCounted := h.toRefCounted.same hst
  winners := by
    rw [hst.top_rated, hst.queued_paths]
    exact h.winners

/-- A slot that changes hands is won by `q`. -/
theorem winners_update_slot {s t : Favorites} {n : Nat} (hq : q < n) (trace_bits : Nat → UInt8)
    (h : t.queued_paths = s.queued_paths ∧ ∀ i w, t.top_rated i = some w → w < n) :
    (Favorites.update_slot q trace_bits t i).queued_paths = s.queued_paths ∧
      ∀ j w, (Favorites.update_slot q trace_bits t i).top_rated j = some w → w < n := by
  have hwin : ∀ j w, Function.update t.top_rated i (some q) j = some w → w < n := by
    intro j w hj
    by_cases hji : j = i
    · rw [hji, Function.update_self] at hj
      cases hj
      exact hq
    · rw [Function.update_of_ne hji] at hj
      exact h.2 j w hj
  unfold Favorites.update_slot
  split
  · exact h
  · split
    · exact ⟨h.1, hwin⟩
    · split
      · exact h
      · exact ⟨h.1, hwin⟩

/-- The winners are entries of the queue, as the entry of the call is. -/
theorem winners_update_bitmap_score {s : Favorites} {n : Nat} (hq : q < n) (trace_bits : Nat → UInt8)
    (h : ∀ i w, s.top_rated i = some w → w < n) :
    (s.update_bitmap_score q trace_bits).queued_paths = s.queued_paths ∧
      ∀ i w, (s.update_bitmap_score q trace_bits).top_rated i = some w → w < n :=
  update_bitmap_score_induction (P := fun t => t.queued_paths = s.queued_paths ∧
    ∀ i w, t.top_rated i = some w → w < n) q trace_bits ⟨rfl, h⟩ fun _ _ _ ht => winners_update_slot hq trace_bits ht

theorem Referenced.update_bitmap_score {s : Favorites} (h : s.Referenced) (hq : q < s.queued_paths)
    (trace_bits : Nat → UInt8) : (s.update_bitmap_score q trace_bits).Referenced := by
  obtain ⟨hpaths, hwinners⟩ := winners_update_bitmap_score hq trace_bits h.winners
  refine ⟨h.toRefCounted.update_bitmap_score q trace_bits, ?_⟩
  rw [hpaths]
  exact hwinners

/-- A new entry has won no slot. -/
theorem Referenced.add_to_queue {s : Favorites} (h : s.Referenced) (q : queue_entry) (len : UInt32) :
    (s.add_to_queue q len).Referenced := by
  have hnone : held s.top_rated s.queued_paths = 0 := by
    refine Nat.count_iff_forall_not.mpr fun i _ hi => ?_
    exact Nat.lt_irrefl _ (h.winners i _ hi)
  refine ⟨⟨fun x => ?_, fun x => ?_⟩, fun i w hi => Nat.lt_succ_of_lt (h.winners i w hi)⟩
  · by_cases hx : x = s.queued_paths
    · simp [Favorites.add_to_queue, hx, rated_entry.fresh, hnone]
    · simpa [Favorites.add_to_queue, hx] using h.counted x
  · by_cases hx : x = s.queued_paths
    · simp [Favorites.add_to_queue, hx, rated_entry.fresh]
    · simpa [Favorites.add_to_queue, hx] using h.traced x

/-- All that the end of `fuzz_one` does: nothing, or the entry is marked and counted as done. -/
theorem fuzz_one_end_cases {s t : Favorites} {queue_cur : Nat} {stop_soon : Bool}
    (h : Returns (s.fuzz_one_end queue_cur stop_soon) t) : (s.finishes queue_cur stop_soon = false ∧ t = s) ∨
      (s.finishes queue_cur stop_soon = true ∧ ∃ ipsm pending_not_fuzzed,
        t = { s.modify queue_cur rated_entry.as_fuzzed with
          ipsm
          pending_not_fuzzed
          pending_favored := if (s.queue queue_cur).favored then s.pending_favored - 1 else s.pending_favored }) := by
  unfold fuzz_one_end at h
  split at h
  · next hfinishes =>
    obtain ⟨u, hu, h⟩ := returns_bind h
    unfold set_was_fuzzed at hu
    obtain ⟨_, _, hu⟩ := returns_bind hu
    refine Or.inr ⟨hfinishes, t.ipsm, t.pending_not_fuzzed, ?_⟩
    rw [returns_pure h, returns_pure hu]
    simp [modify, rated_entry.as_fuzzed]
  · next hfinishes => exact Or.inl ⟨Bool.eq_false_iff.mpr hfinishes, returns_pure h⟩

/-- The end of `fuzz_one` changes flags and counters only. -/
theorem sameTraces_fuzz_one_end {s t : Favorites} {queue_cur : Nat} {stop_soon : Bool}
    (h : Returns (s.fuzz_one_end queue_cur stop_soon) t) : s.SameTraces t := by
  obtain ⟨-, rfl⟩ | ⟨-, _, _, rfl⟩ := fuzz_one_end_cases h
  · exact .refl t
  · exact { sameTraces_modify s queue_cur (f := rated_entry.as_fuzzed) (fun _ => rfl) (fun _ => rfl) with }

theorem returns_in_queue {s : Favorites} {u : Unit} (h : Returns (s.in_queue q) u) : q < s.queued_paths := by
  unfold in_queue at h
  split at h
  · assumption
  · exact absurd h not_returns_fail

/-- Every step of the fuzzer keeps what holds of the references. -/
theorem Referenced.step {s t : Favorites} {e : Event} (h : s.Referenced) (hstep : Returns (s.step e) t) :
    t.Referenced := by
  cases e with
  | add_to_queue q len =>
    rw [returns_pure hstep]
    exact h.add_to_queue q len
  | mark_initial_seed q =>
    obtain ⟨_, _, hstep⟩ := returns_bind hstep
    rw [returns_pure hstep]
    exact h.same (sameTraces_modify s q (fun _ => rfl) (fun _ => rfl))
  | measure q exec_us unique_state_count cal_failed =>
    obtain ⟨_, _, hstep⟩ := returns_bind hstep
    rw [returns_pure hstep]
    exact h.same (sameTraces_modify s q (fun _ => rfl) (fun _ => rfl))
  | update_bitmap_score q trace_bits =>
    obtain ⟨_, hq, hstep⟩ := returns_bind hstep
    rw [returns_pure hstep]
    exact h.update_bitmap_score (returns_in_queue hq) trace_bits
  | update_variables ipsm =>
    rw [returns_pure hstep]
    exact h.same ⟨rfl, rfl, fun _ => rfl, fun _ => rfl⟩
  | choose_target_state state_id =>
    rw [returns_pure hstep]
    exact h.same ⟨rfl, rfl, fun _ => rfl, fun _ => rfl⟩
  | cull_queue => exact h.same (sameTraces_cull_queue hstep)
  | fuzz_one_end queue_cur stop_soon =>
    obtain ⟨_, _, hstep⟩ := returns_bind hstep
    exact h.same (sameTraces_fuzz_one_end hstep)

theorem Run.referenced {Allowed : Favorites → Event → Prop} {s : Favorites} (h : Run Allowed s) : s.Referenced := by
  induction h with
  | start dumb_mode =>
    refine ⟨⟨fun q => ?_, fun q => ?_⟩, fun i w hi => nomatch hi⟩
    · have hnone : held (fun _ => none) q = 0 := Nat.count_iff_forall_not.mpr fun i _ => nofun
      exact hnone.symm
    · exact iff_of_false Bool.false_ne_true (Nat.lt_irrefl 0)
  | step e _ _ hstep ih => exact ih.step hstep

/-- In every state each entry counts the slots it has won and has a trace exactly while
there are any, and `cull_queue` uses no trace that is missing. -/
theorem traces_are_counted {Allowed : Favorites → Event → Prop} {s : Favorites} (h : Run Allowed s) :
    (∀ q, (s.queue q).tc_ref.toNat = held s.top_rated q ∧
      ((s.queue q).trace_mini.isSome = true ↔ 0 < (s.queue q).tc_ref.toNat)) ∧
      Avoids .invalid_pointer s.cull_queue :=
  ⟨fun q => ⟨h.referenced.counted q, h.referenced.traced q⟩, cull_queue_avoids h.referenced.toRefCounted⟩

/-- A trace that hits slot 0 only. -/
def slot_zero : Nat → UInt8 := fun i => if i = 0 then 1 else 0

theorem slot_zero_of_ne (j : Nat) (hj : j ≠ 0) : slot_zero j = 0 := if_neg hj

/-- An entry is calibrated, or calibrated again, with a trace that has slot 0 only. -/
def rate_slot_zero (s : Favorites) (q : Nat) : Favorites := update_slot q slot_zero s 0

theorem Run.rate_slot_zero {Allowed : Favorites → Event → Prop} {s : Favorites} (h : Run Allowed s) (hq : q < s.queued_paths)
    (hallowed : Allowed s (.update_bitmap_score q slot_zero)) : Run Allowed (s.rate_slot_zero q) := by
  refine h.step (.update_bitmap_score q slot_zero) hallowed (returns_of_eq_pure ?_)
  rw [Favorites.step, in_queue, if_pos hq, Checked.pure_bind, update_bitmap_score_single (by decide) slot_zero_of_ne]
  rfl

/-- A single initial seed, which has won slot 0. -/
def one_seed : Favorites :=
  (((start false).add_to_queue (.of_regions "id:000000" []) 4).modify 0 fun e => { e with is_initial_seed := true }).rate_slot_zero 0

/-- The state is reached by a run, whatever is allowed besides `cull_queue`. -/
theorem run_one_seed (Allowed : Favorites → Event → Prop) (h : ∀ s e, e ≠ .cull_queue → Allowed s e) :
    Run Allowed one_seed := by
  have hone := (Run.start false).step (.add_to_queue (.of_regions "id:000000" []) 4) (h _ _ nofun)
    (returns_of_eq_pure rfl)
  have hinitial := hone.step (.mark_initial_seed 0) (h _ _ nofun) (returns_of_eq_pure rfl)
  exact hinitial.rate_slot_zero Nat.one_pos (h _ _ nofun)

/-- Two entries. The first one is calibrated twice, and wins slot 0 from itself, before the second one takes it. -/
def two_entries : Favorites :=
  (((((start false).add_to_queue (.of_regions "id:000000" []) 4).rate_slot_zero 0).rate_slot_zero 0).add_to_queue
    (.of_regions "id:000001" []) 4).rate_slot_zero 1

theorem run_two_entries : Run (fun _ _ => True) two_entries := by
  have hone : Run (fun _ _ => True) ((start false).add_to_queue (.of_regions "id:000000" []) 4) :=
    (Run.start false).step (.add_to_queue (.of_regions "id:000000" []) 4) trivial (returns_of_eq_pure rfl)
  have htwice := (hone.rate_slot_zero (q := 0) Nat.one_pos trivial).rate_slot_zero (q := 0) Nat.one_pos trivial
  have htwo := htwice.step (.add_to_queue (.of_regions "id:000001" []) 4) trivial (returns_of_eq_pure rfl)
  exact htwo.rate_slot_zero (q := 1) (Nat.lt_succ_self 1) trivial

/-- Their counters are right, although the first one is calibrated again after it has lost the
slot, and no trace is missing. -/
theorem traces_of_two_entries :
    (∀ q, (two_entries.queue q).tc_ref.toNat = held two_entries.top_rated q ∧
      ((two_entries.queue q).trace_mini.isSome = true ↔ 0 < (two_entries.queue q).tc_ref.toNat)) ∧
      Avoids .invalid_pointer two_entries.cull_queue :=
  traces_are_counted run_two_entries

example : (two_entries.queue 0).tc_ref = 0 ∧ (two_entries.queue 1).tc_ref = 1 := ⟨rfl, rfl⟩

end Favorites

end aflnet
