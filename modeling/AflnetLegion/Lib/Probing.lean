import Mathlib.Algebra.Ring.Parity
import Mathlib.Data.Fintype.EquivFin
import Mathlib.Data.Nat.ModEq
import Mathlib.Data.Nat.Prime.Basic
import Mathlib.Tactic.Ring

/-! Triangular probing: from a first bucket on, in steps of 1, 2, 3, … -/

namespace Probing

/-- The bucket that is looked at after so many steps. -/
def probe (size start steps : Nat) : Nat := (start + steps * (steps + 1) / 2) % size

variable {size start k t u i : Nat}

theorem probe_lt (hsize : 0 < size) (t : Nat) : probe size start t < size := Nat.mod_lt _ hsize

theorem probe_zero : probe size start 0 = start % size := by
  rw [probe, Nat.zero_mul, Nat.zero_div, Nat.add_zero]

/-- The step distances add up: one triangular number and the next step give the next one. -/
theorem triangle_succ (t : Nat) : (t + 1) * (t + 1 + 1) / 2 = t * (t + 1) / 2 + (t + 1) := by
  have hsum : (t + 1) * (t + 1 + 1) = t * (t + 1) + (t + 1) * 2 := by ring
  rw [hsum, Nat.add_mul_div_right _ _ (by omega)]

/-- Twice a triangular number is a product of two neighbours, whatever the parity. -/
theorem two_mul_triangle (t : Nat) : 2 * (t * (t + 1) / 2) = t * (t + 1) :=
  Nat.mul_div_cancel' (Nat.even_mul_succ_self t).two_dvd

/-- The next probe from the last one, with a step that grows by one each time. This is how the
source computes it. -/
theorem probe_succ (size start t : Nat) : probe size start (t + 1) = (probe size start t + (t + 1)) % size := by
  rw [probe, probe, triangle_succ, ← Nat.add_assoc, Nat.mod_add_mod]

/-- A power of two divides the product of an odd and an even number within one factor. -/
theorem pow_dvd_of_dvd_mul {a b : Nat} (hparity : (a + b) % 2 = 1) (h : 2 ^ k ∣ a * b) : 2 ^ k ∣ a ∨ 2 ^ k ∣ b := by
  have hcoprime : ∀ c, c % 2 = 1 → Nat.Coprime (2 ^ k) c := fun c hc => Nat.Coprime.pow_left k (Nat.coprime_two_left.mpr (Nat.odd_iff.mpr hc))
  rcases Nat.mod_two_eq_zero_or_one a with ha | ha
  · exact Or.inl ((hcoprime b (by omega)).dvd_of_dvd_mul_right h)
  · exact Or.inr ((hcoprime a ha).dvd_of_dvd_mul_left h)

/-- Two steps lead to one bucket only if they are the same, or mirror images. -/
theorem eq_or_mirror (hle : u ≤ t) (h : probe (2 ^ k) start t = probe (2 ^ k) start u) :
    2 ^ (k + 1) ∣ t - u ∨ 2 ^ (k + 1) ∣ t + u + 1 := by
  have htriangle : u * (u + 1) / 2 ≤ t * (t + 1) / 2 := Nat.div_le_div_right (Nat.mul_le_mul hle (by omega))
  have hdvd : 2 ^ k ∣ t * (t + 1) / 2 - u * (u + 1) / 2 := by
    have hmod : Nat.ModEq (2 ^ k) (start + u * (u + 1) / 2) (start + t * (t + 1) / 2) := h.symm
    exact (Nat.modEq_iff_dvd' htriangle).mp (Nat.ModEq.add_left_cancel' start hmod)
  have hproduct : 2 * (t * (t + 1) / 2 - u * (u + 1) / 2) = (t - u) * (t + u + 1) := by
    obtain ⟨d, rfl⟩ := Nat.exists_eq_add_of_le hle
    rw [Nat.mul_sub, two_mul_triangle, two_mul_triangle, Nat.add_sub_cancel_left]
    have hexpand : (u + d) * (u + d + 1) = d * (u + d + u + 1) + u * (u + 1) := by ring
    rw [hexpand, Nat.add_sub_cancel]
  have hpow : 2 ^ (k + 1) ∣ (t - u) * (t + u + 1) := by
    rw [← hproduct, Nat.pow_succ, Nat.mul_comm]
    exact Nat.mul_dvd_mul_left 2 hdvd
  exact pow_dvd_of_dvd_mul (by omega) hpow

/-- The first steps, as many as there are buckets, lead to different buckets. -/
theorem probe_inj (ht : t < 2 ^ k) (hu : u < 2 ^ k) (h : probe (2 ^ k) start t = probe (2 ^ k) start u) : t = u := by
  wlog hle : u ≤ t generalizing t u
  · exact (this hu ht h.symm (by omega)).symm
  have hpow : 2 ^ (k + 1) = 2 * 2 ^ k := by rw [Nat.pow_succ, Nat.mul_comm]
  rcases eq_or_mirror hle h with hdvd | hdvd
  · have hzero := Nat.eq_zero_of_dvd_of_lt hdvd (by omega)
    omega
  · have := Nat.le_of_dvd (by omega) hdvd
    omega

/-- They lead to every bucket. -/
theorem probe_surj (hi : i < 2 ^ k) : ∃ t < 2 ^ k, probe (2 ^ k) start t = i := by
  have hinj : Function.Injective fun t : Fin (2 ^ k) =>
      (⟨probe (2 ^ k) start t, probe_lt (Nat.two_pow_pos k) t⟩ : Fin (2 ^ k)) := by
    intro t u heq
    exact Fin.ext (probe_inj t.isLt u.isLt (Fin.mk.inj heq))
  obtain ⟨t, ht⟩ := Finite.surjective_of_injective hinj ⟨i, hi⟩
  exact ⟨t, t.isLt, Fin.mk.inj ht⟩

/-- The first bucket comes again only after twice as many steps as there are buckets. -/
theorem probe_ne_start (hpos : 0 < t) (ht : t + 1 < 2 ^ (k + 1)) : probe (2 ^ k) start t ≠ start % 2 ^ k := by
  intro h
  rcases eq_or_mirror (Nat.zero_le t) (h.trans probe_zero.symm) with hdvd | hdvd
  · have := Nat.le_of_dvd (by omega) hdvd
    omega
  · have := Nat.le_of_dvd (by omega) hdvd
    omega

/-- It does come again then. -/
theorem probe_return (size start : Nat) (hsize : 0 < size) : probe size start (2 * size - 1) = start % size := by
  have htriangle : (2 * size - 1) * (2 * size - 1 + 1) / 2 = (2 * size - 1) * size := by
    rw [Nat.sub_add_cancel (by omega), Nat.mul_left_comm, Nat.mul_div_cancel_left _ (by omega)]
  rw [probe, htriangle, Nat.add_mul_mod_self_right]

end Probing
