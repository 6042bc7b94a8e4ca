import Mathlib.Data.Finset.Card
import Mathlib.Data.Nat.Count
import Mathlib.Tactic.Basic

/-! Counting the numbers below a bound that have a property. -/

open Nat

namespace Count

variable {p r : Nat → Prop} [DecidablePred p] [DecidablePred r] {m n q : Nat}

/-- A count depends on what the predicate says of the numbers that are counted and of no others.
-/
theorem count_congr (h : ∀ i, i < n → (p i ↔ r i)) : count p n = count r n := by
  apply Nat.le_antisymm
  · exact count_mono_left fun i hi hp => (h i hi).mp hp
  · exact count_mono_left fun i hi hr => (h i hi).mpr hr

/-- One number joins. -/
theorem count_of_insert (hq : q < n) (hp : ¬ p q) (hr : r q) (h : ∀ i, i ≠ q → (r i ↔ p i)) :
    count r n = count p n + 1 := by
  induction n with
  | zero => exact absurd hq (Nat.not_lt_zero q)
  | succ n ih =>
    rw [count_succ, count_succ]
    rcases Nat.lt_succ_iff_lt_or_eq.mp hq with hlt | rfl
    · rw [ih hlt, if_congr (h n (Nat.ne_of_gt hlt)) rfl rfl]
      omega
    · rw [if_pos hr, if_neg hp, count_congr fun i hi => h i (Nat.ne_of_lt hi)]

/-- A stronger property that holds as often is the same one. -/
theorem imp_of_count_eq (himp : ∀ i, i < n → p i → r i) (heq : count p n = count r n) (hq : q < n) (hr : r q) : p q := by
  by_contra hp
  have hinsert : count (fun i => p i ∨ i = q) n = count p n + 1 :=
    count_of_insert hq hp (Or.inr rfl) fun i hi => or_iff_left hi
  have hle : count (fun i => p i ∨ i = q) n ≤ count r n := by
    refine count_mono_left fun i hi hor => ?_
    rcases hor with hpi | rfl
    · exact himp i hi hpi
    · exact hr
  omega

/-- The numbers of an interval. -/
theorem count_interval (hmn : m ≤ n) (hr : ∀ i, i < q → (r i ↔ m ≤ i ∧ i < n)) : count r q = min q n - m := by
  induction q with
  | zero => simp
  | succ q ih =>
    have hq := hr q (Nat.lt_succ_self q)
    rw [count_succ, ih fun i hi => hr i (Nat.lt_succ_of_lt hi), if_congr hq rfl rfl]
    split <;> omega

section counters

variable {counter : UInt32}

/-- A 32-bit counter counts as a natural number does until it is full. -/
theorem toNat_increment (h : counter.toNat + 1 < 2 ^ 32) : (counter + 1).toNat = counter.toNat + 1 := by
  rw [UInt32.toNat_add]
  exact Nat.mod_eq_of_lt h

/-- A 32-bit counter that is not 0 goes down by one without wrapping round. -/
theorem toNat_decrement (h : 0 < counter.toNat) : (counter - 1).toNat = counter.toNat - 1 :=
  UInt32.toNat_sub_of_le _ _ (UInt32.le_iff_toNat_le.mpr h)

end counters

section owners

variable {o : Nat → Option Nat}

/-- Numbers that all own something are at most as many as what is owned. -/
theorem count_le_of_owns (h : ∀ q, q < m → r q → ∃ i, i < n ∧ p i ∧ o i = some q) : count r m ≤ count p n := by
  rw [count_eq_card_filter_range, count_eq_card_filter_range,
    ← Finset.card_map ⟨some, Option.some_injective Nat⟩ (s := (Finset.range m).filter r)]
  refine Nat.le_trans (Finset.card_le_card ?_) (Finset.card_image_le (f := o))
  intro x hx
  obtain ⟨q, hq, rfl⟩ := Finset.mem_map.mp hx
  obtain ⟨hlt, hr⟩ := Finset.mem_filter.mp hq
  obtain ⟨i, hi, hp, howner⟩ := h q (Finset.mem_range.mp hlt) hr
  exact Finset.mem_image.mpr ⟨i, Finset.mem_filter.mpr ⟨Finset.mem_range.mpr hi, hp⟩, howner⟩

/-- Numbers with different owners are at most as many as the owners. -/
theorem count_le_of_owners (howned : ∀ i, i < n → p i → ∃ q, q < m ∧ r q ∧ o i = some q)
    (hdistinct : ∀ i j, i < n → j < n → p i → p j → o i = o j → i = j) : count p n ≤ count r m := by
  rw [count_eq_card_filter_range, count_eq_card_filter_range,
    ← Finset.card_map ⟨some, Option.some_injective Nat⟩ (s := (Finset.range m).filter r)]
  refine Finset.card_le_card_of_injOn o ?_ ?_
  · intro i hi
    obtain ⟨hlt, hp⟩ := Finset.mem_filter.mp (Finset.mem_coe.mp hi)
    obtain ⟨q, hq, hr, howner⟩ := howned i (Finset.mem_range.mp hlt) hp
    exact Finset.mem_coe.mpr (Finset.mem_map.mpr
      ⟨q, Finset.mem_filter.mpr ⟨Finset.mem_range.mpr hq, hr⟩, howner.symm⟩)
  · intro i hi j hj howner
    obtain ⟨hlt, hp⟩ := Finset.mem_filter.mp (Finset.mem_coe.mp hi)
    obtain ⟨hlt', hp'⟩ := Finset.mem_filter.mp (Finset.mem_coe.mp hj)
    exact hdistinct i j (Finset.mem_range.mp hlt) (Finset.mem_range.mp hlt') hp hp' howner

end owners

end Count
