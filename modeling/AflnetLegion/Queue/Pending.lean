import AflnetLegion.Queue.Favored

open Checked

namespace aflnet

namespace Favorites

variable {s t : Favorites} {i q w n : Nat} {queue_cur : Nat} {stop_soon : Bool}

/-- `fuzz_one` is going to decrement `pending_favored`, which it does for a favored entry that
it counts as done. -/
structure Decrements (s : Favorites) (queue_cur : Nat) (stop_soon : Bool) : Prop where
  in_queue : queue_cur < s.queued_paths
  finishes : s.finishes queue_cur stop_soon = true
  favored : (s.queue queue_cur).favored = true

/-- The counter is not decremented while it is zero, where it would wrap, and it is not larger
than the queue. -/
structure PendingSafe (s : Favorites) : Prop where
  positive : ∀ queue_cur stop_soon, s.Decrements queue_cur stop_soon → 0 < s.pending_favored.toNat
  bounded : s.pending_favored.toNat ≤ s.queued_paths

/-- An entry that `fuzz_one` can decrement the counter for: it is favored and was not fuzzed
yet. -/
structure Waiting (s : Favorites) (q : Nat) : Prop where
  favored : (s.queue q).favored = true
  unfuzzed : (s.queue q).was_fuzzed = false

instance (s : Favorites) : DecidablePred s.Waiting := fun _ =>
  decidable_of_iff (_ ∧ _) ⟨fun h => ⟨h.1, h.2⟩, fun h => ⟨h.1, h.2⟩⟩

theorem waiting_congr (hfavored : (t.queue q).favored = (s.queue q).favored)
    (hfuzzed : (t.queue q).was_fuzzed = (s.queue q).was_fuzzed) : t.Waiting q ↔ s.Waiting q := by
  constructor
  · rintro ⟨h, hunfuzzed⟩
    exact ⟨hfavored.symm.trans h, hfuzzed.symm.trans hunfuzzed⟩
  · rintro ⟨h, hunfuzzed⟩
    exact ⟨hfavored.trans h, hfuzzed.trans hunfuzzed⟩

/-- Why the counter is safe: it counts at least the entries that wait, so there is always
something left to take from it. -/
structure PendingCovers (s : Favorites) : Prop where
  waiting : Nat.count s.Waiting s.queued_paths ≤ s.pending_favored.toNat
  bounded : s.pending_favored.toNat ≤ s.queued_paths

/-- A counter that covers the entries that wait is safe. -/
theorem PendingCovers.safe (h : s.PendingCovers) : s.PendingSafe where
  positive := by
    intro q stop_soon hdec
    have hunfuzzed : (s.queue q).was_fuzzed = false := by
      have hfinishes := hdec.finishes
      simp only [finishes, Bool.and_eq_true, Bool.not_eq_true'] at hfinishes
      exact hfinishes.2
    refine Nat.lt_of_lt_of_le (Nat.pos_of_ne_zero ?_) h.waiting
    exact Nat.count_ne_iff_exists.mpr ⟨q, hdec.in_queue, hdec.favored, hunfuzzed⟩
  bounded := h.bounded

/-- It still covers them as long as nothing about favored entries changes. -/
theorem PendingCovers.same (h : s.PendingCovers) (hst : s.SameFavored t) : t.PendingCovers := by
  constructor
  · rw [hst.queued_paths, hst.pending_favored,
      Count.count_congr fun q _ => waiting_congr (hst.favored q) (hst.was_fuzzed q)]
    exact h.waiting
  · rw [hst.queued_paths, hst.pending_favored]
    exact h.bounded

theorem PendingCovers.add_to_queue (h : s.PendingCovers) (q : queue_entry) (len : UInt32) :
    (s.add_to_queue q len).PendingCovers := by
  have hnew : ¬ (s.add_to_queue q len).Waiting s.queued_paths := by
    rintro ⟨hfavored, _⟩
    simp [Favorites.add_to_queue, rated_entry.fresh] at hfavored
  have hold : ∀ x, x < s.queued_paths → ((s.add_to_queue q len).Waiting x ↔ s.Waiting x) := by
    intro x hx
    have hentry : (s.add_to_queue q len).queue x = s.queue x := Function.update_of_ne (Nat.ne_of_lt hx) ..
    exact waiting_congr (congrArg _ hentry) (congrArg _ hentry)
  constructor
  · change Nat.count _ (s.queued_paths + 1) ≤ s.pending_favored.toNat
    rw [Nat.count_succ, if_neg hnew, Count.count_congr hold]
    exact h.waiting
  · exact Nat.le_succ_of_le h.bounded

/-- The counter counts, without counting an entry twice, every entry that waits after an
effective call. -/
structure CountsWaiting (s : Favorites) : Prop where
  counts : ∀ q, q < s.queued_paths → (s.queue q).was_fuzzed = false →
    (s.Kept q ∨ ∃ i, i < MAP_SIZE ∧ s.Chosen i ∧ s.top_rated i = some q) →
      ∃ i, i < MAP_SIZE ∧ s.ChosenPending i ∧ s.top_rated i = some q
  once : ∀ i j, i < MAP_SIZE → j < MAP_SIZE → s.ChosenPending i → s.ChosenPending j → s.top_rated i = s.top_rated j → i = j

/-- After a call that counts every entry that waits the counter covers them. -/
theorem Effective.pendingCovers (heffective : s.Effective) (hs : s.Referenced) (hcounts : s.CountsWaiting)
    (h : Returns s.cull_queue t) : t.PendingCovers := by
  obtain ⟨temp_v, hculling⟩ := heffective.culling h
  have hpaths : t.queued_paths = s.queued_paths := hculling.queued_paths
  have hpending : t.pending_favored.toNat = Nat.count s.ChosenPending MAP_SIZE := hculling.pending
  constructor
  · rw [hpaths, hpending]
    refine Count.count_le_of_owns (o := s.top_rated) fun q hq hwaiting => ?_
    have hentry : t.queue q = { s.queue q with favored := (t.queue q).favored } := hculling.entry q
    have hunfuzzed := hwaiting.unfuzzed
    rw [hentry] at hunfuzzed
    exact hcounts.counts q hq hunfuzzed ((hculling.favored q).mp hwaiting.favored)
  · rw [hpaths, hpending]
    have hwinners : ∀ i, i < MAP_SIZE → s.ChosenPending i → ∃ w, w < s.queued_paths ∧ True ∧ s.top_rated i = some w := by
      intro i _ hi
      obtain ⟨w, hlt, hw⟩ := hs.winner_of_chosen hi.1
      exact ⟨w, hlt, trivial, hw⟩
    exact Nat.le_trans (Count.count_le_of_owners hwinners hcounts.once) (Nat.count_le _)

/-- What the end of `fuzz_one` does to an entry that it counts as done. -/
theorem fuzz_one_end_finished (hfinishes : s.finishes queue_cur stop_soon = true)
    (h : Returns (s.fuzz_one_end queue_cur stop_soon) t) :
    t.queued_paths = s.queued_paths ∧ t.queue = Function.update s.queue queue_cur (s.queue queue_cur).as_fuzzed ∧
      t.pending_favored = if (s.queue queue_cur).favored then s.pending_favored - 1 else s.pending_favored := by
  obtain ⟨hnot, -⟩ | ⟨-, _, _, rfl⟩ := fuzz_one_end_cases h
  · rw [hfinishes] at hnot
    cases hnot
  · exact ⟨rfl, rfl, rfl⟩

/-- The end of `fuzz_one` takes the entry from those that wait when it decrements the counter.
-/
theorem PendingCovers.fuzz_one_end (h : s.PendingCovers) (hqueue : queue_cur < s.queued_paths)
    (hend : Returns (s.fuzz_one_end queue_cur stop_soon) t) : t.PendingCovers := by
  by_cases hfinishes : s.finishes queue_cur stop_soon = true
  · obtain ⟨hpaths, hentries, hpending⟩ := fuzz_one_end_finished hfinishes hend
    have hother : ∀ q, q ≠ queue_cur → (s.Waiting q ↔ t.Waiting q) := by
      intro q hq
      have hentry : s.queue q = t.queue q := by rw [hentries, Function.update_of_ne hq]
      exact waiting_congr (congrArg _ hentry) (congrArg _ hentry)
    have hdone : ¬ t.Waiting queue_cur := by
      rintro ⟨_, hunfuzzed⟩
      rw [hentries, Function.update_self] at hunfuzzed
      cases hunfuzzed
    have hunfuzzed : (s.queue queue_cur).was_fuzzed = false := by
      simp only [finishes, Bool.and_eq_true, Bool.not_eq_true'] at hfinishes
      exact hfinishes.2
    have hwaiting := h.waiting
    have hbounded := h.bounded
    cases hfavored : (s.queue queue_cur).favored with
    | false =>
      -- the entry did not wait, and the counter stays
      rw [hfavored, if_neg Bool.false_ne_true] at hpending
      have hcount : Nat.count t.Waiting s.queued_paths = Nat.count s.Waiting s.queued_paths := by
        refine Count.count_congr fun q _ => ?_
        by_cases hq : q = queue_cur
        · subst hq
          refine iff_of_false hdone fun hs => ?_
          rw [hs.favored] at hfavored
          cases hfavored
        · exact (hother q hq).symm
      constructor
      · rw [hpaths, hpending, hcount]
        exact hwaiting
      · rw [hpaths, hpending]
        exact hbounded
    | true =>
      rw [hfavored, if_pos rfl] at hpending
      have hcount := Count.count_of_insert hqueue hdone ⟨hfavored, hunfuzzed⟩ hother
      have hpositive : 0 < s.pending_favored.toNat := by omega
      have hdec := Count.toNat_decrement hpositive
      constructor
      · rw [hpaths, hpending, hdec]
        omega
      · rw [hpaths, hpending, hdec]
        omega
  · obtain ⟨-, rfl⟩ | ⟨hdone, -⟩ := fuzz_one_end_cases hend
    · exact h
    · exact absurd hdone hfinishes

/-- When `cull_queue` is called and has something to do, it counts the entries that will
wait. -/
def CullsPending (s : Favorites) (e : Event) : Prop := e = .cull_queue → s.Effective → s.CountsWaiting

/-- The counter covers the entries that wait in every state of such a run. -/
theorem Run.pendingCovers (h : Run CullsPending s) : s.PendingCovers := by
  induction h with
  | start dumb_mode => exact ⟨Nat.zero_le _, Nat.zero_le _⟩
  | @step s t e hrun hallowed hstep ih =>
    rcases step_favored_cases hstep with hsame | ⟨q, len, rfl⟩ | ⟨rfl, hcull⟩ | ⟨queue_cur, stop_soon, _, hqueue, hend⟩
    · exact ih.same hsame
    · exact ih.add_to_queue q len
    · by_cases heffective : s.Effective
      · exact heffective.pendingCovers hrun.referenced (hallowed rfl heffective) hcull
      · rw [cull_queue_of_not_effective heffective hcull]
        exact ih
    · exact ih.fuzz_one_end hqueue hend

/-- In every state of a run whose effective calls of `cull_queue` meet the condition,
`pending_favored` is above 0 whenever it is decremented, and not larger than the queue. The
events may come in any order. -/
theorem pending_favored_safe (h : Run CullsPending s) : s.PendingSafe := h.pendingCovers.safe

/-- The seed in a mode that maintains `was_fuzzed_map`. -/
def reachable_seed : Favorites :=
  { one_seed with ipsm := { one_seed.ipsm with was_fuzzed_map := [[0]] } }

/-- What the first call leaves: the seed is favored and counted. -/
def reachable_seed_culled : Favorites :=
  { reachable_seed.reset_favored.modify 0 rated_entry.as_favored with
    queued_favored := 1
    pending_favored := 1 }

theorem cull_reachable_seed : reachable_seed.cull_queue = pure reachable_seed_culled := by
  have hpending : reachable_seed.reset_favored.is_pending 0 = pure true := rfl
  have hother : ∀ j, j ≠ 0 → reachable_seed.top_rated j = none := top_rated_one_seed
  have hcull := cull_queue_single (s := reachable_seed) (i := 0) ⟨rfl, rfl⟩ (by decide) rfl hother rfl hpending
  rwa [if_pos rfl] at hcull

theorem countsWaiting_reachable_seed : reachable_seed.CountsWaiting := by
  have hother : ∀ j, j ≠ 0 → reachable_seed.top_rated j = none := top_rated_one_seed
  have hunique : ∀ j, reachable_seed.ChosenPending j → j = 0 := by
    intro j hj
    by_contra hne
    have hwinner := (chosen_iff.mp hj.1).1
    rw [has_winner, hother j hne] at hwinner
    cases hwinner
  have hchosen : reachable_seed.ChosenPending 0 :=
    ⟨chosen_iff.mpr ⟨rfl, fun j hj => absurd hj (Nat.not_lt_zero j)⟩, 0, rfl, Or.inr rfl, rfl⟩
  refine ⟨fun q hq _ _ => ?_, fun i j _ _ hi hj _ => (hunique i hi).trans (hunique j hj).symm⟩
  have hzero : q = 0 := Nat.lt_one_iff.mp hq
  exact ⟨0, by decide, hchosen, by rw [hzero]; rfl⟩

theorem pending_favored_of_reachable_seed : reachable_seed_culled.PendingSafe := by
  have hrun := run_one_seed CullsPending fun _ _ hne heq => absurd heq hne
  have hupdated : Run CullsPending reachable_seed := hrun.step (.update_variables _) nofun (returns_of_eq_pure rfl)
  exact pending_favored_safe (hupdated.step .cull_queue (fun _ _ => countsWaiting_reachable_seed)
    (returns_of_eq_pure cull_reachable_seed))

/-- Without state-aware variables the seed is favored and not counted, and after it was
fuzzed the counter is the largest number it can hold. -/
theorem pending_favored_wraps : ∃ t, Run (fun _ _ => True) one_seed_culled ∧ one_seed_culled.Decrements 0 false ∧
    one_seed_culled.pending_favored = 0 ∧ Returns (one_seed_culled.step (.fuzz_one_end 0 false)) t ∧
      t.pending_favored = 4294967295 ∧ t.queued_paths = 1 ∧ ¬ one_seed_culled.PendingSafe ∧ ¬ t.PendingSafe := by
  have hrun := run_one_seed (fun _ _ => True) fun _ _ _ => trivial
  have hculled := hrun.step .cull_queue trivial (returns_of_eq_pure cull_one_seed)
  have hdec : one_seed_culled.Decrements 0 false := ⟨by decide, rfl, rfl⟩
  refine ⟨_, hculled, hdec, rfl, returns_of_eq_pure rfl, rfl, rfl, fun hsafe => ?_, fun hsafe => ?_⟩
  · exact absurd (hsafe.positive 0 false hdec) (by decide)
  · exact absurd hsafe.bounded (by decide)

end Favorites

end aflnet
