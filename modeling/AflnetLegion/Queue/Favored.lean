import AflnetLegion.Queue.Cull

open Checked

namespace aflnet

namespace Favorites

variable {s t : Favorites} {i q w n : Nat}

/-- Nothing about favored entries differs: neither the flags nor the two counters, and no entry
has joined the queue. -/
structure SameFavored (s t : Favorites) : Prop where
  queued_paths : t.queued_paths = s.queued_paths
  favored : ∀ q, (t.queue q).favored = (s.queue q).favored
  was_fuzzed : ∀ q, (t.queue q).was_fuzzed = (s.queue q).was_fuzzed
  queued_favored : t.queued_favored = s.queued_favored
  pending_favored : t.pending_favored = s.pending_favored

theorem SameFavored.refl (s : Favorites) : s.SameFavored s := ⟨rfl, fun _ => rfl, fun _ => rfl, rfl, rfl⟩

theorem SameFavored.trans {u : Favorites} (hst : s.SameFavored t) (htu : t.SameFavored u) : s.SameFavored u where
  queued_paths := htu.queued_paths.trans hst.queued_paths
  favored := fun q => (htu.favored q).trans (hst.favored q)
  was_fuzzed := fun q => (htu.was_fuzzed q).trans (hst.was_fuzzed q)
  queued_favored := htu.queued_favored.trans hst.queued_favored
  pending_favored := htu.pending_favored.trans hst.pending_favored

theorem sameFavored_modify (s : Favorites) (q : Nat) {f : rated_entry → rated_entry}
    (hfavored : ∀ e, (f e).favored = e.favored) (hfuzzed : ∀ e, (f e).was_fuzzed = e.was_fuzzed) :
    s.SameFavored (s.modify q f) := by
  refine ⟨rfl, fun x => ?_, fun x => ?_, rfl, rfl⟩
  · by_cases hx : x = q
    · simp [modify, hx, hfavored]
    · simp [modify, hx]
  · by_cases hx : x = q
    · simp [modify, hx, hfuzzed]
    · simp [modify, hx]

/-- Winning a slot changes references and traces, but no flag. -/
theorem sameFavored_win_slot (s : Favorites) (q : Nat) (trace_bits : Nat → UInt8) (i : Nat) :
    s.SameFavored (s.win_slot q trace_bits i) :=
  { sameFavored_modify s q (f := fun e => e.retain trace_bits) (fun _ => rfl) (fun _ => rfl) with }

theorem sameFavored_update_bitmap_score (s : Favorites) (q : Nat) (trace_bits : Nat → UInt8) :
    s.SameFavored (s.update_bitmap_score q trace_bits) := by
  refine update_bitmap_score_induction (P := s.SameFavored) q trace_bits (.refl s) fun t i _ ht => ht.trans ?_
  unfold update_slot
  split
  · exact .refl t
  · split
    · exact t.sameFavored_win_slot q trace_bits i
    · rename_i w _
      split
      · exact .refl t
      · exact (t.sameFavored_modify w (f := rated_entry.release) (fun _ => rfl) (fun _ => rfl)).trans (sameFavored_win_slot _ q trace_bits i)

/-- What a step can do to favored entries. -/
theorem step_favored_cases {e : Event} (h : Returns (s.step e) t) :
    s.SameFavored t ∨ (∃ q len, t = s.add_to_queue q len) ∨ (e = .cull_queue ∧ Returns s.cull_queue t) ∨
      ∃ queue_cur stop_soon, e = .fuzz_one_end queue_cur stop_soon ∧ queue_cur < s.queued_paths ∧
        Returns (s.fuzz_one_end queue_cur stop_soon) t := by
  cases e with
  | add_to_queue q len => exact Or.inr (Or.inl ⟨q, len, returns_pure h⟩)
  | mark_initial_seed q =>
    obtain ⟨_, _, h⟩ := returns_bind h
    rw [returns_pure h]
    exact Or.inl (s.sameFavored_modify q (fun _ => rfl) (fun _ => rfl))
  | measure q exec_us unique_state_count cal_failed =>
    obtain ⟨_, _, h⟩ := returns_bind h
    rw [returns_pure h]
    exact Or.inl (s.sameFavored_modify q (fun _ => rfl) (fun _ => rfl))
  | update_bitmap_score q trace_bits =>
    obtain ⟨_, _, h⟩ := returns_bind h
    rw [returns_pure h]
    exact Or.inl (s.sameFavored_update_bitmap_score q trace_bits)
  | update_variables ipsm =>
    rw [returns_pure h]
    exact Or.inl { SameFavored.refl s with }
  | choose_target_state state_id =>
    rw [returns_pure h]
    exact Or.inl { SameFavored.refl s with }
  | cull_queue => exact Or.inr (Or.inr (Or.inl ⟨rfl, h⟩))
  | fuzz_one_end queue_cur stop_soon =>
    obtain ⟨_, hqueue, h⟩ := returns_bind h
    exact Or.inr (Or.inr (Or.inr ⟨queue_cur, stop_soon, rfl, returns_in_queue hqueue, h⟩))

/-- The counter is the number of favored entries of the queue. -/
def FavoredExact (s : Favorites) : Prop :=
  s.queued_favored.toNat = Nat.count (fun q => (s.queue q).favored = true) s.queued_paths

/-- No entry is chosen for two slots. -/
def ChoosesOnce (s : Favorites) : Prop :=
  ∀ i j, i < MAP_SIZE → j < MAP_SIZE → s.Chosen i → s.Chosen j → s.top_rated i = s.top_rated j → i = j

/-- Each initial seed that is already favored is chosen. Its flag is not reset, so that it is
favored in any case, while only what is chosen is counted. -/
def ChoosesKept (s : Favorites) : Prop :=
  ∀ q, q < s.queued_paths → (s.queue q).is_initial_seed = true → (s.queue q).favored = true →
    ∃ i, i < MAP_SIZE ∧ s.Chosen i ∧ s.top_rated i = some q

/-- The winner of a chosen slot. -/
theorem Referenced.winner_of_chosen (hs : s.Referenced) (h : s.Chosen i) : ∃ w, w < s.queued_paths ∧ s.top_rated i = some w := by
  obtain ⟨w, hw⟩ := Option.isSome_iff_exists.mp (chosen_iff.mp h).1
  exact ⟨w, hs.winners i w hw, hw⟩

open Classical in
/-- Without an entry that is chosen twice, as many entries as slots are chosen. -/
theorem count_chosen (hs : s.Referenced) (honce : s.ChoosesOnce) : Nat.count s.Chosen MAP_SIZE =
    Nat.count (fun q => ∃ i, i < MAP_SIZE ∧ s.Chosen i ∧ s.top_rated i = some q) s.queued_paths := by
  apply Nat.le_antisymm
  · refine Count.count_le_of_owners (o := s.top_rated) ?_ honce
    intro i hi hchosen
    obtain ⟨w, hlt, hw⟩ := hs.winner_of_chosen hchosen
    exact ⟨w, hlt, ⟨i, hi, hchosen, hw⟩, hw⟩
  · exact Count.count_le_of_owns fun q _ ⟨i, hi, hchosen, hq⟩ => ⟨i, hi, hchosen, hq⟩

/-- After an effective call that chooses no entry twice the counter is exact if and only
if the initial seeds that stay favored are counted again. -/
theorem Effective.exact_iff (heffective : s.Effective) (hs : s.Referenced) (honce : s.ChoosesOnce)
    (h : Returns s.cull_queue t) : t.FavoredExact ↔ s.ChoosesKept := by
  classical
  obtain ⟨temp_v, hculling⟩ := heffective.culling h
  have hpaths : t.queued_paths = s.queued_paths := hculling.queued_paths
  have hfavored := hculling.favored
  have himp : ∀ q, q < s.queued_paths → (∃ i, i < MAP_SIZE ∧ s.Chosen i ∧ s.top_rated i = some q) →
      (t.queue q).favored = true := fun q _ hown => (hfavored q).mpr (Or.inr hown)
  have hexact : t.FavoredExact ↔
      Nat.count (fun q => ∃ i, i < MAP_SIZE ∧ s.Chosen i ∧ s.top_rated i = some q) s.queued_paths =
        Nat.count (fun q => (t.queue q).favored = true) s.queued_paths := by
    rw [FavoredExact, hculling.queued, count_chosen hs honce, hpaths]
  rw [hexact]
  constructor
  · intro heq q hq hinitial hkept
    exact Count.imp_of_count_eq himp heq hq ((hfavored q).mpr (Or.inl ⟨hkept, Or.inr hinitial⟩))
  · intro hkept
    refine Count.count_congr fun q hq => ⟨himp q hq, fun hq' => ?_⟩
    rcases (hfavored q).mp hq' with ⟨hfav, hinitial⟩ | hown
    · exact hkept q hq (hinitial.resolve_left (Nat.not_le.mpr hq)) hfav
    · exact hown

/-- The counter stays exact as long as nothing about favored entries changes. -/
theorem FavoredExact.same (h : s.FavoredExact) (hst : s.SameFavored t) : t.FavoredExact := by
  unfold FavoredExact
  rw [hst.queued_favored, hst.queued_paths, h]
  exact Count.count_congr fun q _ => by rw [hst.favored]

theorem FavoredExact.add_to_queue (h : s.FavoredExact) (q : queue_entry) (len : UInt32) :
    (s.add_to_queue q len).FavoredExact := by
  have hnew : ¬ ((s.add_to_queue q len).queue s.queued_paths).favored = true := by
    simp [Favorites.add_to_queue, rated_entry.fresh]
  change s.queued_favored.toNat = Nat.count _ (s.queued_paths + 1)
  rw [Nat.count_succ, if_neg hnew, h]
  refine Count.count_congr fun x hx => ?_
  simp [Favorites.add_to_queue, Nat.ne_of_lt hx]

/-- The end of `fuzz_one` changes no flag. -/
theorem fuzz_one_end_favored {queue_cur : Nat} {stop_soon : Bool} (h : Returns (s.fuzz_one_end queue_cur stop_soon) t) :
    t.queued_paths = s.queued_paths ∧ t.queued_favored = s.queued_favored ∧
      ∀ q, (t.queue q).favored = (s.queue q).favored := by
  obtain ⟨-, rfl⟩ | ⟨-, _, _, rfl⟩ := fuzz_one_end_cases h
  · exact ⟨rfl, rfl, fun _ => rfl⟩
  · refine ⟨rfl, rfl, fun q => ?_⟩
    by_cases hq : q = queue_cur
    · simp [modify, hq, rated_entry.as_fuzzed]
    · simp [modify, hq]

/-- When `cull_queue` is called and has something to do, no entry is chosen for two
slots, and the initial seeds that are already favored are chosen. -/
def CullsExactly (s : Favorites) (e : Event) : Prop :=
  e = .cull_queue → s.Effective → s.ChoosesOnce ∧ s.ChoosesKept

/-- In every state of a run whose effective calls of `cull_queue` meet the condition,
`queued_favored` is exact. Calibrations and the other events between these calls may come in any
order. -/
theorem queued_favored_exact (h : Run CullsExactly s) : s.FavoredExact := by
  induction h with
  | start dumb_mode => rfl
  | @step s t e hrun hallowed hstep ih =>
    rcases step_favored_cases hstep with hsame | ⟨q, len, rfl⟩ | ⟨rfl, hcull⟩ | ⟨queue_cur, stop_soon, _, _, hend⟩
    · exact ih.same hsame
    · exact ih.add_to_queue q len
    · by_cases heffective : s.Effective
      · obtain ⟨honce, hkept⟩ := hallowed rfl heffective
        exact (heffective.exact_iff hrun.referenced honce hcull).mpr hkept
      · rw [cull_queue_of_not_effective heffective hcull]
        exact ih
    · obtain ⟨hpaths, hqueued, hfavored⟩ := fuzz_one_end_favored hend
      unfold FavoredExact
      rw [hqueued, hpaths, ih]
      exact Count.count_congr fun q _ => by rw [hfavored]

/-- An entry is chosen once if its trace has all the slots it has won. -/
theorem choosesOnce_of_traces (h : ∀ i j, s.has_winner i → s.has_winner j → s.top_rated i = s.top_rated j → s.covers i j) :
    s.ChoosesOnce := fun _ _ _ _ hi hj howner => GreedyCover.Chosen.owner_injective h hi hj howner

/-- What `cull_queue` leaves if `w` has won the only slot with a winner, and is not pending. -/
def culled (s : Favorites) (w : Nat) : Favorites :=
  { s.reset_favored.modify w rated_entry.as_favored with
    queued_favored := 1
    pending_favored := 0 }

/-- After the first call of `cull_queue`. -/
def one_seed_culled : Favorites := one_seed.culled 0

theorem top_rated_one_seed (j : Nat) (hj : j ≠ 0) : one_seed.top_rated j = none := Function.update_of_ne hj ..

theorem cull_one_seed : one_seed.cull_queue = pure one_seed_culled := by
  have hpending : one_seed.reset_favored.is_pending 0 = pure false := rfl
  exact cull_queue_single (i := 0) ⟨rfl, rfl⟩ (by decide) rfl top_rated_one_seed rfl hpending

/-- With winners of a single slot nothing can be chosen twice, so what remains is that a favored
initial seed is chosen again. -/
theorem cullsExactly_of_slot_zero (hzero : s.has_winner 0) (hother : ∀ j, j ≠ 0 → s.top_rated j = none)
    (hkept : ∀ q, (s.queue q).is_initial_seed = true → (s.queue q).favored = true → s.top_rated 0 = some q) :
    CullsExactly s .cull_queue := by
  have hunique : ∀ j, s.Chosen j → j = 0 := by
    intro j hj
    by_contra hne
    have hwinner := (chosen_iff.mp hj).1
    rw [has_winner, hother j hne] at hwinner
    cases hwinner
  refine fun _ _ => ⟨fun i j _ _ hi hj _ => (hunique i hi).trans (hunique j hj).symm, fun q _ hinitial hfavored => ?_⟩
  exact ⟨0, by decide, chosen_iff.mpr ⟨hzero, fun j hj => absurd hj (Nat.not_lt_zero j)⟩, hkept q hinitial hfavored⟩

/-- The first of two entries has won slot 0, and `cull_queue` has been called. -/
def first_culled : Favorites := (((start false).add_to_queue (.of_regions "id:000000" []) 4).rate_slot_zero 0).culled 0

/-- The first entry is calibrated again, and a second one takes the slot from it. -/
def rival_entries : Favorites := ((first_culled.rate_slot_zero 0).add_to_queue (.of_regions "id:000001" []) 4).rate_slot_zero 1

theorem top_rated_rival_entries (j : Nat) (hj : j ≠ 0) : rival_entries.top_rated j = none := by
  have htop : rival_entries.top_rated =
      Function.update (Function.update (Function.update (fun _ => none) 0 (some 0)) 0 (some 0)) 0 (some 1) := rfl
  rw [htop, Function.update_of_ne hj, Function.update_of_ne hj, Function.update_of_ne hj]

/-- The two entries are reached by a run, whose one effective call meets the condition. -/
theorem run_rival_entries : Run CullsExactly rival_entries := by
  have hfree : ∀ s e, e ≠ Event.cull_queue → CullsExactly s e := fun _ _ hne heq => absurd heq hne
  have hone := (Run.start false).step (.add_to_queue (.of_regions "id:000000" []) 4) (hfree _ _ nofun) (returns_of_eq_pure rfl)
  have hrated := hone.rate_slot_zero (q := 0) Nat.one_pos (hfree _ _ nofun)
  have hother : ∀ j, j ≠ 0 → (((start false).add_to_queue (.of_regions "id:000000" []) 4).rate_slot_zero 0).top_rated j = none :=
    fun j hj => Function.update_of_ne hj ..
  have hpending : (((start false).add_to_queue (.of_regions "id:000000" []) 4).rate_slot_zero 0).reset_favored.is_pending 0 =
      pure false := rfl
  have hallowed := cullsExactly_of_slot_zero (s := ((start false).add_to_queue (.of_regions "id:000000" []) 4).rate_slot_zero 0) rfl hother
    fun q hinitial => by cases q <;> cases hinitial
  have hculled : Run CullsExactly first_culled := hrated.step .cull_queue hallowed
    (returns_of_eq_pure (cull_queue_single (i := 0) ⟨rfl, rfl⟩ (by decide) rfl hother rfl hpending))
  have hagain := hculled.rate_slot_zero (q := 0) Nat.one_pos (hfree _ _ nofun)
  have htwo := hagain.step (.add_to_queue (.of_regions "id:000001" []) 4) (hfree _ _ nofun) (returns_of_eq_pure rfl)
  exact htwo.rate_slot_zero (q := 1) (Nat.lt_succ_self 1) (hfree _ _ nofun)

/-- The second call finds the second entry as the only winner. -/
theorem cull_rival_entries : rival_entries.cull_queue = pure (rival_entries.culled 1) := by
  have hpending : rival_entries.reset_favored.is_pending 1 = pure false := rfl
  exact cull_queue_single (i := 0) ⟨rfl, rfl⟩ (by decide) rfl top_rated_rival_entries rfl hpending

/-- The second call clears the flag of the first entry, and sets that of the second one. -/
theorem run_rival_entries_culled : Run CullsExactly (rival_entries.culled 1) := by
  have hallowed : CullsExactly rival_entries .cull_queue := by
    refine cullsExactly_of_slot_zero rfl top_rated_rival_entries fun q hinitial => ?_
    match q with
    | 0 | 1 | q + 2 => cases hinitial
  exact run_rival_entries.step .cull_queue hallowed (returns_of_eq_pure cull_rival_entries)

/-- The counter is exact after the second call too, in which the favored entry changes. -/
theorem queued_favored_of_rival_entries : (rival_entries.culled 1).FavoredExact := queued_favored_exact run_rival_entries_culled

example : (rival_entries.queue 0).favored = true ∧ ((rival_entries.culled 1).queue 0).favored = false ∧
    ((rival_entries.culled 1).queue 1).favored = true := ⟨rfl, rfl, rfl⟩

/-- Another entry takes over slot 0 from the initial seed. -/
def second_winner : Favorites := (one_seed_culled.add_to_queue (.of_regions "id:000001" []) 4).rate_slot_zero 1

theorem cull_second_winner : second_winner.cull_queue = pure (second_winner.culled 1) := by
  have htop : second_winner.top_rated = Function.update one_seed.top_rated 0 (some 1) := rfl
  have hpending : second_winner.reset_favored.is_pending 1 = pure false := rfl
  refine cull_queue_single (i := 0) ⟨rfl, rfl⟩ (by decide) rfl (fun j hj => ?_) rfl hpending
  rw [htop, Function.update_of_ne hj]
  exact top_rated_one_seed j hj

/-- The initial seed stays favored and is not counted when the other entry is. -/
theorem queued_favored_misses_initial_seed : ∃ t, Run (fun _ _ => True) t ∧ t.queued_favored = 1 ∧ t.queued_paths = 2 ∧
    (t.queue 0).favored = true ∧ (t.queue 1).favored = true ∧ ¬ t.FavoredExact := by
  have hrun := run_one_seed (fun _ _ => True) fun _ _ _ => trivial
  have hculled := hrun.step .cull_queue trivial (returns_of_eq_pure cull_one_seed)
  have hadded := hculled.step (.add_to_queue (.of_regions "id:000001" []) 4) trivial (returns_of_eq_pure rfl)
  have hscored : Run (fun _ _ => True) second_winner := hadded.rate_slot_zero (q := 1) (Nat.lt_succ_self 1) trivial
  refine ⟨_, hscored.step .cull_queue trivial (returns_of_eq_pure cull_second_winner), rfl, rfl, rfl, rfl, ?_⟩
  intro hexact
  cases hexact

/-- An entry stands for a slot that it has won or that its trace has. -/
def StandsFor (s : Favorites) (q i : Nat) : Prop :=
  s.top_rated i = some q ∨ ∃ trace_mini, (s.queue q).trace_mini = some trace_mini ∧ trace_mini.test i = true

/-- The call does not change for which slots an entry stands. -/
theorem Culling.standsFor {c : Bitmap × Favorites} (h : s.Culling n c) : c.2.StandsFor q i ↔ s.StandsFor q i := by
  rw [StandsFor, h.top_rated, h.entry q, StandsFor]

/-- A slot with a winner was chosen or is covered by the winner of a slot that was. -/
theorem Referenced.stands_of_has_winner (hs : s.Referenced) (hwinner : s.has_winner i) :
    ∃ j q, j ≤ i ∧ s.Chosen j ∧ s.top_rated j = some q ∧ q < s.queued_paths ∧ s.StandsFor q i := by
  have hstands : s.Chosen i ∨ ∃ j, j < i ∧ s.Chosen j ∧ s.covers j i := GreedyCover.chosen_or_covered hwinner
  rcases hstands with hchosen | ⟨j, hj, hchosen, hcovers⟩
  · obtain ⟨q, hq, hwin⟩ := hs.winner_of_chosen hchosen
    exact ⟨i, q, Nat.le_refl i, hchosen, hwin, hq, Or.inl hwin⟩
  · obtain ⟨q, trace_mini, hwin, htrace⟩ := hcovers
    exact ⟨j, q, Nat.le_of_lt hj, hchosen, hwin, hs.winners j q hwin, Or.inr ⟨trace_mini, htrace⟩⟩

/-- An effective call finds the trace of each winner, and after it some favored entry of
the queue stands for every slot that has a winner. -/
theorem favored_entries_cover (hs : s.Referenced) (heffective : s.Effective) : Avoids .invalid_pointer s.cull_queue ∧
    ∀ t, Returns s.cull_queue t → ∀ i w, i < MAP_SIZE → t.top_rated i = some w →
      ∃ q, q < t.queued_paths ∧ (t.queue q).favored = true ∧ t.StandsFor q i := by
  refine ⟨cull_queue_avoids hs.toRefCounted, fun t h i w hi hwin => ?_⟩
  obtain ⟨temp_v, hculling⟩ := heffective.culling h
  have htop : t.top_rated = s.top_rated := hculling.top_rated
  have hwinner : s.has_winner i := by simp [has_winner, ← htop, hwin]
  obtain ⟨j, q, hj, hchosen, hown, hq, hstands⟩ := hs.stands_of_has_winner hwinner
  refine ⟨q, hculling.queued_paths ▸ hq, ?_, hculling.standsFor.mpr hstands⟩
  exact (hculling.favored q).mpr (Or.inr ⟨j, Nat.lt_of_le_of_lt hj hi, hchosen, hown⟩)

/-- After the second call some favored entry stands for the slot. -/
theorem rival_entries_cover : ∃ q, q < (rival_entries.culled 1).queued_paths ∧ ((rival_entries.culled 1).queue q).favored = true ∧
    (rival_entries.culled 1).StandsFor q 0 :=
  (favored_entries_cover run_rival_entries.referenced ⟨rfl, rfl⟩).2 (rival_entries.culled 1) (returns_of_eq_pure cull_rival_entries) 0 1
    (by decide) rfl

end Favorites

end aflnet
