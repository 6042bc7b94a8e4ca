import Mathlib.Data.Finset.Card

/-! A search that reports what it has not seen before. -/

namespace Novelty

variable {α : Type} [DecidableEq α] {seen all found : Finset α} {finds : List (Finset α)} {a : α}

/-- What has been seen after some finds. -/
def after (seen : Finset α) (finds : List (Finset α)) : Finset α := finds.foldl (· ∪ ·) seen

/-- For each find, whether it shows something new: something that was not seen before it, in
earlier finds or at the start. -/
def reports (seen : Finset α) : List (Finset α) → List Bool
  | [] => []
  | found :: finds => decide (¬ found ⊆ seen) :: reports (seen ∪ found) finds

/-- An element was seen in the end if it had been seen before or is in one of the finds. -/
theorem mem_after : a ∈ after seen finds ↔ a ∈ seen ∨ ∃ found ∈ finds, a ∈ found := by
  induction finds generalizing seen with
  | nil => simp [after]
  | cons found finds ih =>
    rw [after, List.foldl_cons, ← after, ih]
    simp [or_assoc]

theorem subset_after (seen : Finset α) (finds : List (Finset α)) : seen ⊆ after seen finds :=
  fun _ ha => mem_after.mpr (Or.inl ha)

theorem after_empty_cons (seen : Finset α) (finds : List (Finset α)) : after seen (∅ :: finds) = after seen finds := by
  rw [after, List.foldl_cons, Finset.union_empty, after]

/-- Nothing is new in the end exactly if the first find shows nothing new and nothing comes after it. -/
theorem union_unchanged_iff (h : seen ∪ found ⊆ all) : found ⊆ seen ∧ all = seen ∪ found ↔ all = seen := by
  constructor
  · rintro ⟨hold, rfl⟩
    exact Finset.union_eq_left.mpr hold
  · rintro rfl
    have hold := (Finset.union_subset_iff.mp h).2
    exact ⟨hold, (Finset.union_eq_left.mpr hold).symm⟩

/-- Each report has a new element to itself. -/
theorem count_reports (seen : Finset α) (finds : List (Finset α)) :
    (reports seen finds).count true + seen.card ≤ (after seen finds).card := by
  induction finds generalizing seen with
  | nil => simp [reports, after]
  | cons found finds ih =>
    have hrest := ih (seen ∪ found)
    rw [reports, after, List.foldl_cons, ← after]
    by_cases hold : found ⊆ seen
    · rw [Finset.union_eq_left.mpr hold] at hrest ⊢
      simpa [hold] using hrest
    · have hmore : seen.card < (seen ∪ found).card :=
        Finset.card_lt_card (Finset.ssubset_iff_subset_ne.mpr
          ⟨Finset.subset_union_left, fun heq => hold (Finset.union_eq_left.mp heq.symm)⟩)
      rw [decide_eq_true hold, List.count_cons_self]
      omega

/-- If all finds are among the things there are to see, so is what has been seen. -/
theorem after_subset (hseen : seen ⊆ all) (hfinds : ∀ found ∈ finds, found ⊆ all) : after seen finds ⊆ all := by
  intro a ha
  rcases mem_after.mp ha with h | ⟨found, hfound, h⟩
  · exact hseen h
  · exact hfinds found hfound h

/-- There are no more reports than there are things to see. -/
theorem count_reports_le (hseen : seen ⊆ all) (hfinds : ∀ found ∈ finds, found ⊆ all) :
    (reports seen finds).count true ≤ all.card - seen.card := by
  have hcount := count_reports seen finds
  have hcard := Finset.card_le_card (after_subset hseen hfinds)
  omega

end Novelty
