import AflnetLegion.Lib.GreedyCover
import AflnetLegion.Queue.RefCount

open Checked

namespace aflnet

namespace Favorites

/-- An effective call of `cull_queue`. In dumb mode, or when no winner has changed since the
last call, it returns at once. -/
structure Effective (s : Favorites) : Prop where
  dumb_mode : s.dumb_mode = false
  score_changed : s.score_changed = true

/-- The slot has been won by some entry. -/
def has_winner (s : Favorites) (i : Nat) : Prop := (s.top_rated i).isSome = true

/-- The trace of the winner of slot `j` has slot `i`. -/
def covers (s : Favorites) (j i : Nat) : Prop :=
  ∃ w trace_mini, s.top_rated j = some w ∧ (s.queue w).trace_mini = some trace_mini ∧ trace_mini.test i = true

/-- The slots whose winners become favored: those that the winners of the slots chosen
before do not cover. -/
def Chosen (s : Favorites) (i : Nat) : Prop := GreedyCover.Chosen s.has_winner s.covers i

/-- An entry whose flag is not cleared at the start of the call: one that is not in the queue,
or an initial seed. -/
structure Kept (s : Favorites) (q : Nat) : Prop where
  favored : (s.queue q).favored = true
  initial : s.queued_paths ≤ q ∨ (s.queue q).is_initial_seed = true

/-- An entry that is counted as pending when it becomes favored: it is one for the target state,
which it was not fuzzed for. -/
structure Counted (s : Favorites) (w : Nat) : Prop where
  targeted : (s.queue w).generating_state_id = s.target_state_id ∨ (s.queue w).is_initial_seed = true
  reachable : s.ipsm.cell (s.ipsm.get_state_index s.target_state_id) (s.queue w).index = some 0

/-- A slot that is chosen and whose winner is counted as pending. -/
def ChosenPending (s : Favorites) (i : Nat) : Prop := s.Chosen i ∧ ∃ w, s.top_rated i = some w ∧ s.Counted w

noncomputable instance (s : Favorites) : DecidablePred s.Chosen := Classical.decPred _

noncomputable instance (s : Favorites) : DecidablePred s.ChosenPending := Classical.decPred _

/-- The state of the loop of `cull_queue` before slot `n`: the bits that are left, and the
entries that became favored, by the slots chosen so far. -/
structure Culling (s : Favorites) (n : Nat) (c : Bitmap × Favorites) : Prop where
  temp_v : ∀ k, k < MAP_SIZE → (c.1.test k = true ↔ ∀ j, j < n → s.Chosen j → ¬ s.covers j k)
  frame : c.2 = { s.reset_favored with
    queue := c.2.queue
    queued_favored := c.2.queued_favored
    pending_favored := c.2.pending_favored }
  entry : ∀ q, c.2.queue q = { s.queue q with favored := (c.2.queue q).favored }
  favored : ∀ q, (c.2.queue q).favored = true ↔ s.Kept q ∨ ∃ j, j < n ∧ s.Chosen j ∧ s.top_rated j = some q
  queued : c.2.queued_favored.toNat = Nat.count s.Chosen n
  pending : c.2.pending_favored.toNat = Nat.count s.ChosenPending n

variable {s t : Favorites} {c d : Bitmap × Favorites} {i q w n : Nat}

/-- A slot is chosen if it has a winner and no chosen slot before it covers it. -/
theorem chosen_iff : s.Chosen i ↔ s.has_winner i ∧ ∀ j, j < i → s.Chosen j → ¬ s.covers j i := GreedyCover.chosen_iff

/-- Before the first slot all bits are left, and the flags have been reset. -/
theorem culling_start (s : Favorites) : Culling s 0 (fun _ => 255, s.reset_favored) where
  temp_v := fun k _ => iff_of_true (Bitmap.test_full k) fun j hj => absurd hj (Nat.not_lt_zero j)
  frame := rfl
  entry := by
    intro q
    dsimp only
    rw [reset_favored_queue]
    split <;> rfl
  favored := by
    intro q
    have hnone : ¬ ∃ j, j < 0 ∧ s.Chosen j ∧ s.top_rated j = some q := fun ⟨j, hj, _⟩ => Nat.not_lt_zero j hj
    rw [or_iff_left hnone, reset_favored_queue]
    split
    · rename_i hcleared
      refine iff_of_false Bool.false_ne_true fun hkept => ?_
      exact hkept.initial.elim (Nat.not_le.mpr hcleared.1) hcleared.2
    · rename_i hkept
      rw [not_and_not_right] at hkept
      refine ⟨fun h => ⟨h, ?_⟩, fun h => h.favored⟩
      exact (Nat.lt_or_ge q s.queued_paths).elim (fun hlt => Or.inr (hkept hlt)) Or.inl
  queued := rfl
  pending := rfl

theorem Culling.queued_paths (h : s.Culling n c) : c.2.queued_paths = s.queued_paths := by
  rw [h.frame]
  rfl

theorem Culling.top_rated (h : s.Culling n c) : c.2.top_rated = s.top_rated := by
  rw [h.frame]
  rfl

/-- A slot that is not chosen. -/
theorem Culling.skip (h : s.Culling i c) (hnot : ¬ s.Chosen i) : s.Culling (i + 1) c where
  temp_v := by
    intro k hk
    rw [h.temp_v k hk, Nat.forall_lt_succ_right]
    exact (and_iff_left fun hchosen => absurd hchosen hnot).symm
  frame := h.frame
  entry := h.entry
  favored := by
    intro q
    rw [h.favored q, Nat.exists_lt_succ_right]
    simp [hnot]
  queued := by
    rw [h.queued, Nat.count_succ, if_neg hnot, Nat.add_zero]
  pending := by
    rw [h.pending, Nat.count_succ, if_neg (fun hchosen => hnot hchosen.1), Nat.add_zero]

/-- A slot of the remaining ones is chosen exactly if it has a winner. -/
theorem Culling.chosen (h : s.Culling i c) (hi : i < MAP_SIZE) :
    s.Chosen i ↔ s.has_winner i ∧ c.1.test i = true := by
  rw [chosen_iff, h.temp_v i hi]

theorem returns_get_trace_mini {bits : Bitmap} (h : Returns (s.get_trace_mini w) bits) :
    (s.queue w).trace_mini = some bits := by
  unfold get_trace_mini at h
  split at h
  · exact absurd h not_returns_fail
  · rename_i trace_mini htrace
    rw [htrace, returns_pure h]

/-- Whether an entry is pending is looked up without what the loop changes. -/
theorem returns_is_pending {b : Bool} (h : Returns (s.is_pending w) b) : b = true ↔ s.Counted w := by
  unfold is_pending at h
  split at h
  · rename_i htargeted
    obtain ⟨value, hvalue, h⟩ := returns_bind h
    unfold get_was_fuzzed at hvalue
    split at hvalue
    · exact absurd hvalue not_returns_fail
    · rename_i cell hcell
      rw [returns_pure hvalue] at h
      rw [returns_pure h, decide_eq_true_iff]
      constructor
      · rintro rfl
        exact ⟨htargeted, hcell⟩
      · intro hcounted
        rw [hcounted.reachable] at hcell
        exact (Option.some.inj hcell).symm
  · rename_i htargeted
    rw [returns_pure h]
    exact iff_of_false Bool.false_ne_true fun hcounted => htargeted hcounted.targeted

/-- Whether an entry is counted as pending is the same during the loop for the slots to come. -/
theorem Culling.counted (h : s.Culling i c) (w : Nat) : c.2.Counted w ↔ s.Counted w := by
  have hentry := h.entry w
  have htarget : c.2.target_state_id = s.target_state_id := by rw [h.frame]; rfl
  have hipsm : c.2.ipsm = s.ipsm := by rw [h.frame]; rfl
  constructor
  · rintro ⟨htargeted, hreachable⟩
    rw [hentry, htarget] at htargeted
    rw [hentry, hipsm, htarget] at hreachable
    exact ⟨htargeted, hreachable⟩
  · rintro ⟨htargeted, hreachable⟩
    constructor
    · rw [hentry, htarget]
      exact htargeted
    · rw [hentry, hipsm, htarget]
      exact hreachable

theorem covers_iff {bits : Bitmap} (hwin : s.top_rated i = some w) (hbits : (s.queue w).trace_mini = some bits)
    (k : Nat) : s.covers i k ↔ bits.test k = true := by
  constructor
  · rintro ⟨v, other, hv, hother, htest⟩
    rw [hwin] at hv
    cases hv
    rw [hbits] at hother
    cases hother
    exact htest
  · exact fun htest => ⟨w, bits, hwin, hbits, htest⟩

/-- A slot that is chosen. -/
theorem Culling.choose {bits : Bitmap} {pending : Bool} (h : s.Culling i c) (hi : i < MAP_SIZE) (hchosen : s.Chosen i)
    (hwin : s.top_rated i = some w) (hbits : (s.queue w).trace_mini = some bits)
    (hpending : pending = true ↔ s.Counted w) :
    s.Culling (i + 1) (c.1.remove bits (MAP_SIZE / 8), { c.2.modify w rated_entry.as_favored with
      queued_favored := c.2.queued_favored + 1
      pending_favored := if pending then c.2.pending_favored + 1 else c.2.pending_favored }) where
  temp_v := by
    intro k hk
    have hbyte : k / 8 < MAP_SIZE / 8 := Nat.div_lt_div_of_lt_of_dvd (by decide) hk
    rw [Bitmap.test_remove _ _ hbyte, Nat.forall_lt_succ_right, ← h.temp_v k hk, imp_iff_right hchosen,
      covers_iff hwin hbits]
    simp
  frame := congrArg (fun v : Favorites => { v with
    queue := (c.2.modify w rated_entry.as_favored).queue
    queued_favored := c.2.queued_favored + 1
    pending_favored := if pending then c.2.pending_favored + 1 else c.2.pending_favored }) h.frame
  entry := by
    intro q
    change Function.update c.2.queue w (c.2.queue w).as_favored q = { s.queue q with
      favored := (Function.update c.2.queue w (c.2.queue w).as_favored q).favored }
    by_cases hq : q = w
    · rw [hq, Function.update_self, h.entry w]
      rfl
    · rw [Function.update_of_ne hq]
      exact h.entry q
  favored := by
    intro q
    change (Function.update c.2.queue w (c.2.queue w).as_favored q).favored = true ↔ _
    rw [Nat.exists_lt_succ_right, ← or_assoc, ← h.favored q]
    by_cases hq : q = w
    · rw [hq, Function.update_self]
      exact iff_of_true rfl (Or.inr ⟨hchosen, hwin⟩)
    · rw [Function.update_of_ne hq]
      refine (or_iff_left ?_).symm
      rintro ⟨_, hother⟩
      rw [hwin] at hother
      exact hq (Option.some.inj hother).symm
  queued := by
    rw [Nat.count_succ, if_pos hchosen, ← h.queued]
    refine Count.toNat_increment ?_
    have hle : c.2.queued_favored.toNat ≤ i := by
      rw [h.queued]
      exact Nat.count_le _
    exact Nat.lt_of_le_of_lt (Nat.succ_le_succ hle) (Nat.lt_of_le_of_lt hi (by decide))
  pending := by
    have hle : c.2.pending_favored.toNat ≤ i := by
      rw [h.pending]
      exact Nat.count_le _
    have hroom : c.2.pending_favored.toNat + 1 < 2 ^ 32 :=
      Nat.lt_of_le_of_lt (Nat.succ_le_succ hle) (Nat.lt_of_le_of_lt hi (by decide))
    have hiff : s.ChosenPending i ↔ pending = true := by
      rw [hpending]
      constructor
      · rintro ⟨_, v, hv, hcounted⟩
        rw [hwin] at hv
        cases hv
        exact hcounted
      · exact fun hcounted => ⟨hchosen, w, hwin, hcounted⟩
    rw [Nat.count_succ, if_congr hiff rfl rfl, ← h.pending]
    cases pending with
    | false => rfl
    | true => exact Count.toNat_increment hroom

theorem Culling.step (h : s.Culling i c) (hi : i < MAP_SIZE) (hstep : Returns (cull_slot c i) d) :
    s.Culling (i + 1) d := by
  unfold cull_slot at hstep
  rw [h.top_rated] at hstep
  split at hstep
  · rename_i hnone
    rw [returns_pure hstep]
    refine h.skip fun hchosen => ?_
    have hwinner := ((h.chosen hi).mp hchosen).1
    rw [has_winner, hnone] at hwinner
    cases hwinner
  · rename_i w hwin
    split at hstep
    · rename_i htest
      obtain ⟨bits, hbits, hstep⟩ := returns_bind hstep
      obtain ⟨u, hu, hstep⟩ := returns_bind hstep
      unfold favor at hu
      obtain ⟨pending, hpending, hu⟩ := returns_bind hu
      rw [returns_pure hstep, returns_pure hu]
      have hwinner : s.has_winner i := by rw [has_winner, hwin]; rfl
      have htrace := returns_get_trace_mini hbits
      rw [h.entry w] at htrace
      exact h.choose hi ((h.chosen hi).mpr ⟨hwinner, htest⟩) hwin htrace
        ((returns_is_pending hpending).trans (h.counted w))
    · rename_i htest
      rw [returns_pure hstep]
      exact h.skip fun hchosen => htest ((h.chosen hi).mp hchosen).2

/-- What an effective call of `cull_queue` does. -/
theorem Effective.culling (hs : s.Effective) (h : Returns s.cull_queue t) :
    ∃ temp_v, s.Culling MAP_SIZE (temp_v, t) := by
  unfold cull_queue at h
  rw [if_neg (by simp [hs.dumb_mode, hs.score_changed])] at h
  obtain ⟨c, hc, h⟩ := returns_bind h
  have hculling : s.Culling MAP_SIZE c :=
    returns_foldlM_range (I := fun n c => s.Culling n c) s.culling_start
      (fun i hi a d ha hstep => ha.step hi hstep) hc
  rw [returns_pure h]
  exact ⟨c.1, hculling⟩

theorem cull_queue_of_not_effective (hs : ¬ s.Effective) (h : Returns s.cull_queue t) : t = s := by
  unfold cull_queue at h
  split at h
  · exact returns_pure h
  · rename_i hrun
    rw [not_or, Bool.not_eq_true, not_not] at hrun
    exact absurd ⟨hrun.1, hrun.2⟩ hs

/-- A call that finds a single slot with a winner. -/
theorem cull_queue_single {bits : Bitmap} {pending : Bool} (hs : s.Effective) (hi : i < MAP_SIZE)
    (hwin : s.top_rated i = some w) (hother : ∀ j, j ≠ i → s.top_rated j = none)
    (hbits : (s.reset_favored.queue w).trace_mini = some bits) (hpending : s.reset_favored.is_pending w = pure pending) :
    s.cull_queue = pure { s.reset_favored.modify w rated_entry.as_favored with
      queued_favored := 1
      pending_favored := if pending then 1 else 0 } := by
  have hround : cull_slot (fun _ => 255, s.reset_favored) i = pure (Bitmap.remove (fun _ => 255) bits (MAP_SIZE / 8),
      { s.reset_favored.modify w rated_entry.as_favored with
        queued_favored := 1
        pending_favored := if pending then 1 else 0 }) := by
    have htop : s.reset_favored.top_rated i = some w := hwin
    unfold cull_slot get_trace_mini favor
    simp only [htop, Bitmap.test_full, if_true, hbits, hpending, Checked.pure_bind]
    rfl
  have hloop : (List.range MAP_SIZE).foldlM cull_slot (fun _ => 255, s.reset_favored) = _ :=
    Loop.foldlM_range_single (P := fun c => c.2.top_rated = s.top_rated) hi rfl rfl ?_ hround
  · unfold cull_queue
    rw [if_neg (by simp [hs.dumb_mode, hs.score_changed]), hloop, Checked.pure_bind]
  · intro j c hc hj
    unfold cull_slot
    rw [hc, hother j hj]

end Favorites

end aflnet
