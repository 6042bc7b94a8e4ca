import AflnetLegion.Lib.Draws
import AflnetLegion.Mcts.Split

open Draws

namespace aflnet

/-- The probabilities of `config.h` with which an entry is skipped: when there are favored ones
to come, and by whether an entry that is not favored was fuzzed. -/
def SKIP_TO_NEW_PROB : Nat := 99

def SKIP_NFAV_OLD_PROB : Nat := 95

def SKIP_NFAV_NEW_PROB : Nat := 75

/-- Why `fuzz_one` stops without returning: it draws below 0, finds no region, cannot allocate,
or leaves a buffer. -/
inductive fuzz_one.fault where
  | zero_limit | no_region | no_memory | out_of_bounds
  deriving DecidableEq, Repr

/-- `UR(limit)`, which divides by the limit: `fuzz_one` must not draw below 0. -/
def fuzz_one.UR (limit : Nat) : Draws fuzz_one.fault Nat := below limit .zero_limit

/-- What `fuzz_one` knows outside of MCTS mode when it selects M2. A target is only set in
state-aware mode. -/
structure Selecting where
  state_aware_mode : Bool
  target_state_id : UInt32
  pending_favored : UInt32
  dumb_mode : Bool
  queued_paths : UInt32
  queue_cycle : UInt64
  was_fuzzed : Bool
  favored : Bool
  queue_cur : queue_entry
  targeted : state_aware_mode = false → target_state_id = 0

namespace Selecting

/-- Whether the entry is skipped at the start, at the expense of others. A number is drawn only
in the cases in which it decides. -/
def skips (s : Selecting) : Draws fuzz_one.fault Bool :=
  if s.pending_favored ≠ 0 then
    if s.was_fuzzed ∨ ¬ s.favored then do
      let n ← fuzz_one.UR 100
      pure (n < SKIP_TO_NEW_PROB)
    else pure false
  else if ¬ s.dumb_mode ∧ ¬ s.favored ∧ s.queued_paths > 10 then do
    let n ← fuzz_one.UR 100
    pure (if s.queue_cycle > 1 ∧ ¬ s.was_fuzzed then n < SKIP_NFAV_NEW_PROB else n < SKIP_NFAV_OLD_PROB)
  else pure false

/-- The number of regions up to the first one that ends in the target state, or of all. An
unannotated region before that makes `fuzz_one` return. -/
def reach_target (target_state_id : UInt32) : List region_t → Option Nat
  | [] => some 0
  | region :: rest =>
    if 0 < region.state_count then
      if (region.state_sequence.getD [])[region.state_count - 1]? = some target_state_id then some 1
      else (reach_target target_state_id rest).map (· + 1)
    else none

/-- M2 for the target state, `(M2_start_region_ID, M2_region_count)`, unless the entry is
skipped. M2 starts behind the first region that reaches the state. -/
def select_by_target (s : Selecting) : Option (Nat × Nat) :=
  if s.target_state_id = 0 then some (0, mcts.M2_region_count false s.queue_cur 0)
  else do
    let M2_start_region_ID ← reach_target s.target_state_id s.queue_cur.live_regions
    if M2_start_region_ID ≥ s.queue_cur.region_count then none
    else some (M2_start_region_ID, mcts.M2_region_count false s.queue_cur M2_start_region_ID)

/-- M2 outside of the state-aware mode: a random start, and a random number of regions behind
it, at least one. -/
def select_randomly (total_region : Nat) : Draws fuzz_one.fault (Nat × Nat) := do
  let M2_start_region_ID ← fuzz_one.UR total_region
  let M2_region_count ← fuzz_one.UR (total_region - M2_start_region_ID)
  pure (M2_start_region_ID, if M2_region_count = 0 then 1 else M2_region_count)

/-- In state-aware mode no entry is skipped, as the seed was chosen before. -/
def skips_entry (s : Selecting) : Draws fuzz_one.fault Bool := if s.state_aware_mode then pure false else s.skips

/-- The start of `fuzz_one` up to the selection of M2. An entry without regions fails an
assertion of the source. -/
def select_M2 (s : Selecting) : Draws fuzz_one.fault (Option (Nat × Nat)) := do
  let skipped ← s.skips_entry
  if skipped then pure none
  else do
    require (s.queue_cur.region_count ≠ 0) .no_region
    if s.state_aware_mode then pure s.select_by_target
    else do
      let M2 ← select_randomly s.queue_cur.region_count
      pure (some M2)

/-- A selection that the rest of `fuzz_one` can use: M2 has a region, ends within the entry, and
starts right behind the first region that reaches the target. -/
structure Legal (s : Selecting) (M2 : Nat × Nat) : Prop where
  nonempty : 1 ≤ M2.2
  within : M2.1 + M2.2 ≤ s.queue_cur.region_count
  reaches : s.target_state_id ≠ 0 → 1 ≤ M2.1 ∧
    (∃ region, s.queue_cur.live_regions[M2.1 - 1]? = some region ∧ region.codes.getLast? = some s.target_state_id) ∧
    ∀ i region, i < M2.1 - 1 → s.queue_cur.live_regions[i]? = some region → region.codes.getLast? ≠ some s.target_state_id

section select_M2

variable {s : Selecting}

/-- Whether an entry is skipped can always be decided, as no number is drawn below 0. -/
theorem skips_always (s : Selecting) : Always s.skips fun _ => True := by
  rw [skips]
  split
  · split
    · exact (Always.below (by decide)).bind fun _ _ => Always.pure trivial
    · exact Always.pure trivial
  · split
    · exact (Always.below (by decide)).bind fun _ _ => Always.pure trivial
    · exact Always.pure trivial

/-- M2 has at least one region and stays within the entry. -/
theorem select_randomly_always {total_region : Nat} (h : 0 < total_region) :
    Always (select_randomly total_region) fun M2 => 1 ≤ M2.2 ∧ M2.1 + M2.2 ≤ total_region := by
  refine (Always.below h).bind fun start hstart => ?_
  refine (Always.below (Nat.sub_pos_of_lt hstart)).bind fun count hcount => Always.pure ?_
  dsimp only
  split <;> omega

/-- The last code of an annotated region. -/
theorem getLast?_codes {region : region_t} (h : 0 < region.state_count) :
    region.codes.getLast? = (region.state_sequence.getD [])[region.state_count - 1]? := by
  rw [List.getLast?_eq_getElem?, region.length_codes, region_t.codes, List.getElem?_take_of_lt (by omega)]

/-- The loop stops right behind the first region that ends in the target state. -/
theorem reach_target_spec {target_state_id : UInt32} {regions : List region_t} {start : Nat}
    (h : reach_target target_state_id regions = some start) (hstart : start < regions.length) :
    1 ≤ start ∧ (∃ region, regions[start - 1]? = some region ∧ region.codes.getLast? = some target_state_id) ∧
      ∀ i region, i < start - 1 → regions[i]? = some region → region.codes.getLast? ≠ some target_state_id := by
  induction regions generalizing start with
  | nil => exact absurd hstart (Nat.not_lt_zero _)
  | cons region rest ih =>
    rw [reach_target] at h
    split at h
    · rename_i hannotated
      split at h
      · rename_i hlast
        cases h
        exact ⟨Nat.le_refl 1, ⟨region, rfl, (getLast?_codes hannotated).trans hlast⟩, fun i _ hi => absurd hi (Nat.not_lt_zero i)⟩
      · rename_i hlast
        obtain ⟨n, hn, rfl⟩ := Option.map_eq_some_iff.mp h
        obtain ⟨hpos, ⟨reached, hreached, hcodes⟩, hbefore⟩ := ih hn (Nat.lt_of_succ_lt_succ hstart)
        refine ⟨Nat.le_add_left 1 n, ⟨reached, ?_, hcodes⟩, ?_⟩
        · rw [Nat.add_sub_cancel, ← Nat.sub_add_cancel hpos, List.getElem?_cons_succ]
          exact hreached
        · intro i other hi hother
          cases i with
          | zero =>
            cases hother
            rw [getLast?_codes hannotated]
            exact hlast
          | succ i => exact hbefore i other (by omega) hother
    · cases h

/-- M2 for the target state ends within the entry. It has a region even where the state comes at
the end. -/
theorem select_by_target_legal {M2 : Nat × Nat} (hpos : 0 < s.queue_cur.region_count) (h : s.select_by_target = some M2) :
    s.Legal M2 := by
  rw [select_by_target] at h
  split at h
  · rename_i hzero
    cases h
    obtain ⟨hcount, hstop⟩ := mcts.M2_region_count_bounds hpos false
    exact ⟨hcount, hstop, fun hne => absurd hzero hne⟩
  · obtain ⟨start, hstart, h⟩ := Option.bind_eq_some_iff.mp h
    split at h
    · cases h
    · rename_i hlt
      cases h
      have hin : start < s.queue_cur.region_count := Nat.lt_of_not_le hlt
      obtain ⟨hcount, hstop⟩ := mcts.M2_region_count_bounds hin false
      refine ⟨hcount, hstop, fun _ => reach_target_spec hstart ?_⟩
      rw [queue_entry.length_live_regions]
      exact hin

/-- Outside of MCTS mode M2 is selected without a failure, and legally, for every entry with a
region, every target state and every number drawn. A choice that gives no M2 is one for which
the fuzzer skips the entry. -/
theorem select_M2_legal (hpos : 1 ≤ s.queue_cur.region_count) :
    Always s.select_M2 fun selected => ∀ M2, selected = some M2 → s.Legal M2 := by
  have hskip : Always s.skips_entry fun _ => True := by
    rw [skips_entry]
    split
    · exact Always.pure trivial
    · exact skips_always s
  refine hskip.bind fun skipped _ => ?_
  split
  · exact Always.pure fun M2 hnone => by cases hnone
  · refine (Always.require (Nat.ne_of_gt hpos)).bind fun _ _ => ?_
    split
    · exact Always.pure fun M2 hM2 => select_by_target_legal hpos hM2
    · rename_i hrandom
      have htarget : s.target_state_id = 0 := s.targeted (Bool.eq_false_iff.mpr hrandom)
      refine (select_randomly_always hpos).bind fun M2 hM2 => Always.pure fun selected hselected => ?_
      cases hselected
      exact ⟨hM2.1, hM2.2, fun hne => absurd htarget hne⟩

/-- A request that is answered with the codes 0 and 220, and another one behind it. -/
def two_requests : Selecting where
  state_aware_mode := true
  target_state_id := 220
  pending_favored := 0
  dumb_mode := false
  queued_paths := 1
  queue_cycle := 1
  was_fuzzed := false
  favored := true
  queue_cur := .of_regions "id:000000" [.annotated 0 9 [0, 220], .annotated 10 19 [0, 220, 221]]
  targeted := by decide

theorem select_M2_of_two_requests : Always two_requests.select_M2 fun selected => ∀ M2, selected = some M2 → two_requests.Legal M2 :=
  select_M2_legal (by decide)

end select_M2

end Selecting

end aflnet
