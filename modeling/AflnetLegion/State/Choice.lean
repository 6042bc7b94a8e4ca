import AflnetLegion.Lib.Count
import Mathlib.Algebra.GroupWithZero.Nat
import Mathlib.Data.List.Induction

open Nat (count)

namespace aflnet

/-- The index of the first of `n` entries that is not below `val`, or `n`. The source compares
with `<=`. -/
def index_search (A : List UInt32) (n : Nat) (val : UInt32) : Nat := (A.take n).findIdx fun a => val ≤ a

/-- The running sums that `update_scores_and_select_next_state` builds. A state without an
entry in the table of states leaves 0 in its slot. -/
def state_scores (scores : List (Option UInt32)) : List UInt32 :=
  scores.foldl (fun sums score =>
    match score with
    | none => sums ++ [0]
    | some score => sums ++ [if sums.length = 0 then score else sums.getLastD 0 + score]) []

/-- How many of the drawn values, all numbers below the last sum, lead to entry `i`. -/
def draws_of (sums : List UInt32) (i : Nat) : Nat :=
  count (fun v => index_search sums sums.length (UInt32.ofNat v) = i) (sums.getLastD 0).toNat

section state_scores

variable {scores : List UInt32} {i : Nat}

/-- What the scores before `i` add up to. -/
def score_sum (scores : List UInt32) (i : Nat) : Nat := ((scores.take i).map UInt32.toNat).sum

theorem score_sum_succ (hi : i < scores.length) : score_sum scores (i + 1) = score_sum scores i + scores[i].toNat := by
  rw [score_sum, List.take_add_one, List.getElem?_eq_getElem hi, List.map_append, List.sum_append]
  rfl

theorem score_sum_le {j : Nat} (hij : i ≤ j) : score_sum scores i ≤ score_sum scores j := by
  obtain ⟨rest, hrest⟩ := List.take_prefix_take_left (l := scores) hij
  rw [score_sum, score_sum, ← hrest, List.map_append, List.sum_append]
  exact Nat.le_add_right _ _

theorem score_sum_append (rest : List UInt32) (hi : i ≤ scores.length) : score_sum (scores ++ rest) i = score_sum scores i := by
  rw [score_sum, List.take_append_of_le_length hi, score_sum]

theorem score_sum_length (scores : List UInt32) : score_sum scores scores.length = (scores.map UInt32.toNat).sum := by
  rw [score_sum, List.take_length]

theorem state_scores_concat (scores : List UInt32) (score : UInt32) : state_scores ((scores ++ [score]).map some) =
    state_scores (scores.map some) ++ [if (state_scores (scores.map some)).length = 0 then score
      else (state_scores (scores.map some)).getLastD 0 + score] := by
  rw [List.map_append, state_scores, List.foldl_append]
  rfl

theorem toNat_getLastD (sums : List UInt32) : (sums.getLastD 0).toNat = (sums.map UInt32.toNat).getLastD 0 := by
  rw [List.getLastD_eq_getLast?, List.getLastD_eq_getLast?, List.getLast?_map]
  cases sums.getLast? <;> rfl

theorem getLastD_score_sums (scores : List UInt32) :
    ((List.range scores.length).map fun i => score_sum scores (i + 1)).getLastD 0 = score_sum scores scores.length := by
  cases scores with
  | nil => rfl
  | cons score scores => simp [List.range_succ]

/-- The sums are those of the scores as long as these stay below `2 ^ 32`. -/
theorem state_scores_eq (hsum : (scores.map UInt32.toNat).sum < 2 ^ 32) :
    (state_scores (scores.map some)).map UInt32.toNat = (List.range scores.length).map fun i => score_sum scores (i + 1) := by
  induction scores using List.reverseRecOn with
  | nil => rfl
  | append_singleton scores score ih =>
    rw [List.map_append, List.sum_append] at hsum
    have hsums := ih (by omega)
    have hlength : (state_scores (scores.map some)).length = scores.length := by
      simpa using congrArg List.length hsums
    have hlast : ((state_scores (scores.map some)).getLastD 0).toNat = score_sum scores scores.length := by
      rw [toNat_getLastD, hsums, getLastD_score_sums]
    have hnew : score_sum (scores ++ [score]) (scores.length + 1) = score_sum scores scores.length + score.toNat := by
      rw [score_sum_succ (by simp), score_sum_append _ (Nat.le_refl _), List.getElem_concat_length rfl]
    rw [state_scores_concat, List.map_append, hsums, List.length_append, List.length_singleton, List.range_succ, List.map_append]
    congr 1
    · refine List.map_congr_left fun i hi => ?_
      rw [score_sum_append _ (List.mem_range.mp hi)]
    · rw [List.map_singleton, List.map_singleton, hnew, hlength]
      split
      · rename_i hempty
        rw [hempty]
        exact congrArg (fun n => [n]) (Nat.zero_add _).symm
      · rw [UInt32.toNat_add, hlast, score_sum_length, Nat.mod_eq_of_lt]
        simpa using hsum

end state_scores

section index_search

variable {scores : List UInt32} {i : Nat}

theorem length_state_scores (hsum : (scores.map UInt32.toNat).sum < 2 ^ 32) :
    (state_scores (scores.map some)).length = scores.length := by
  simpa using congrArg List.length (state_scores_eq hsum)

/-- Each running sum is that of the scores up to it, as long as nothing wraps. -/
theorem toNat_getElem_state_scores (hsum : (scores.map UInt32.toNat).sum < 2 ^ 32)
    (hi : i < (state_scores (scores.map some)).length) : (state_scores (scores.map some))[i].toNat = score_sum scores (i + 1) := by
  have hin : i < scores.length := (length_state_scores hsum) ▸ hi
  have hget := congrArg (fun sums : List Nat => sums[i]?) (state_scores_eq hsum)
  simpa [hi, hin] using hget

/-- A drawn value leads to the first sum that is not below it. -/
theorem index_search_eq_iff (hsum : (scores.map UInt32.toNat).sum < 2 ^ 32) (hi : i < scores.length) {v : Nat}
    (hv : v < 2 ^ 32) : index_search (state_scores (scores.map some)) (state_scores (scores.map some)).length (UInt32.ofNat v) = i ↔
      (if i = 0 then 0 else score_sum scores i + 1) ≤ v ∧ v < score_sum scores (i + 1) + 1 := by
  have hlength := length_state_scores hsum
  have hle : ∀ j (hj : j < (state_scores (scores.map some)).length),
      UInt32.ofNat v ≤ (state_scores (scores.map some))[j] ↔ v ≤ score_sum scores (j + 1) := by
    intro j hj
    rw [UInt32.le_iff_toNat_le, toNat_getElem_state_scores hsum hj, UInt32.toNat_ofNat_of_lt' hv]
  rw [index_search, List.take_length, List.findIdx_eq (hlength ▸ hi), decide_eq_true_iff, hle]
  simp only [decide_eq_false_iff_not]
  cases i with
  | zero =>
    rw [if_pos rfl]
    exact ⟨fun h => ⟨Nat.zero_le v, Nat.lt_succ_of_le h.1⟩, fun h => ⟨Nat.le_of_lt_succ h.2, fun j hj => absurd hj (Nat.not_lt_zero j)⟩⟩
  | succ i =>
    rw [if_neg (Nat.succ_ne_zero i), and_comm, Nat.lt_succ_iff, Nat.succ_le_iff]
    refine and_congr_left fun hbelow => ⟨fun h => ?_, fun h j hj => ?_⟩
    · exact Nat.lt_of_not_le fun hle' => h i (Nat.lt_succ_self i) ((hle i (by omega)).mpr hle')
    · rw [hle j (by omega)]
      exact Nat.not_le_of_lt (Nat.lt_of_le_of_lt (score_sum_le (Nat.succ_le_of_lt hj)) h)

/-- The values that lead to an entry end with the sum up to it, which would be the first value of the next entry. -/
theorem draws_of_eq (hsum : (scores.map UInt32.toNat).sum < 2 ^ 32) (hi : i < scores.length) :
    draws_of (state_scores (scores.map some)) i =
      min (score_sum scores scores.length) (score_sum scores (i + 1) + 1) - if i = 0 then 0 else score_sum scores i + 1 := by
  have htotal : ((state_scores (scores.map some)).getLastD 0).toNat = score_sum scores scores.length := by
    rw [toNat_getLastD, state_scores_eq hsum, getLastD_score_sums]
  have hle : score_sum scores i ≤ score_sum scores (i + 1) := score_sum_le (Nat.le_succ i)
  rw [draws_of, htotal]
  refine Count.count_interval (by split <;> omega) fun v hv => ?_
  rw [score_sum_length] at hv
  exact index_search_eq_iff hsum hi (Nat.lt_trans hv hsum)

/-- Each entry is led to by as many of the drawn values as its score says if and only if there
is one entry. A value on the boundary of two entries goes to the first of them, which is one
value too many for it. -/
theorem proportional_choice_iff (hne : scores ≠ []) (hpos : ∀ score ∈ scores, 0 < score)
    (hsum : (scores.map UInt32.toNat).sum < 2 ^ 32) :
    (∀ i score, scores[i]? = some score → draws_of (state_scores (scores.map some)) i = score.toNat) ↔ scores.length = 1 := by
  obtain ⟨first, rest, rfl⟩ := List.exists_cons_of_ne_nil hne
  have hdraws : draws_of (state_scores ((first :: rest).map some)) 0 =
      min (score_sum (first :: rest) (first :: rest).length) (first.toNat + 1) := by
    rw [draws_of_eq hsum (Nat.succ_pos _), if_pos rfl, Nat.sub_zero, score_sum_succ (Nat.succ_pos _)]
    exact congrArg (fun n => min _ (n + 1)) (Nat.zero_add _)
  cases rest with
  | nil =>
    refine iff_of_true (fun i score hscore => ?_) rfl
    obtain ⟨hi, rfl⟩ := List.getElem?_eq_some_iff.mp hscore
    obtain rfl : i = 0 := Nat.lt_one_iff.mp hi
    have hone : score_sum [first] 1 = first.toNat := Nat.add_zero _
    exact hdraws.trans (hone.symm ▸ Nat.min_eq_left (Nat.le_succ _))
  | cons second rest =>
    refine iff_of_false (fun h => ?_) (by simp)
    have hsecond : 0 < second.toNat := UInt32.lt_iff_toNat_lt.mp (hpos second (by simp))
    have htwo : score_sum (first :: second :: rest) 2 = first.toNat + second.toNat := congrArg (first.toNat + ·) (Nat.add_zero _)
    have hless : score_sum (first :: second :: rest) 2 ≤ score_sum (first :: second :: rest) (first :: second :: rest).length :=
      score_sum_le (by simp)
    have hfirst := hdraws.symm.trans (h 0 first rfl)
    omega

/-- A single state is always chosen. -/
theorem single_state_is_proportional : draws_of (state_scores [some 5]) 0 = 5 :=
  (@proportional_choice_iff [5] (by decide) (by simp) (by decide)).mpr rfl 0 5 rfl

/-- Of two states with equal scores the second is never chosen. -/
theorem second_state_is_never_chosen : draws_of (state_scores [some 1, some 1]) 1 = 0 := by decide

end index_search

end aflnet
