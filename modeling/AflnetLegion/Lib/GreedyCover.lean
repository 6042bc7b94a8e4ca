import Mathlib.Order.Basic

/-! Going through the candidates in order, a candidate is chosen unless one that was
chosen before covers it. -/

namespace GreedyCover

/-- A candidate is chosen if it is eligible and no chosen candidate before it covers it: the
greedy choice in the order of the numbers. -/
def Chosen (eligible : Nat → Prop) (covers : Nat → Nat → Prop) (i : Nat) : Prop :=
  eligible i ∧ ∀ j, j < i → Chosen eligible covers j → ¬ covers j i

variable {eligible : Nat → Prop} {covers : Nat → Nat → Prop} {i j : Nat}

theorem chosen_iff : Chosen eligible covers i ↔
    eligible i ∧ ∀ j, j < i → Chosen eligible covers j → ¬ covers j i := by
  rw [Chosen]

theorem Chosen.isEligible (h : Chosen eligible covers i) : eligible i := (chosen_iff.mp h).1

/-- A chosen candidate does not cover another one after it. -/
theorem Chosen.not_covers (hi : Chosen eligible covers i) (hj : Chosen eligible covers j) (hlt : j < i) :
    ¬ covers j i := (chosen_iff.mp hi).2 j hlt hj

/-- A candidate that is not chosen is covered by one that was chosen before. -/
theorem chosen_or_covered (h : eligible i) : Chosen eligible covers i ∨ ∃ j, j < i ∧ Chosen eligible covers j ∧ covers j i := by
  by_contra hnot
  simp only [not_or, not_exists, not_and] at hnot
  exact hnot.1 (chosen_iff.mpr ⟨h, hnot.2⟩)

/-- An owner is chosen for one of its candidates only if each of them covers the others. -/
theorem Chosen.owner_injective {α : Type} {owner : Nat → α}
    (hself : ∀ i j, eligible i → eligible j → owner i = owner j → covers i j)
    (hi : Chosen eligible covers i) (hj : Chosen eligible covers j) (howner : owner i = owner j) : i = j := by
  rcases Nat.lt_trichotomy i j with hlt | heq | hgt
  · exact absurd (hself i j hi.isEligible hj.isEligible howner) (hj.not_covers hi hlt)
  · exact heq
  · exact absurd (hself j i hj.isEligible hi.isEligible howner.symm) (hi.not_covers hj hgt)

end GreedyCover
