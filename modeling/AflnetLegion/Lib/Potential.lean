import Mathlib.Data.List.Basic

namespace Potential

variable {α : Type}

/-- A change that keeps the predicate keeps the count. -/
theorem countP_modify_of_same {p : α → Bool} {f : α → α} (hf : ∀ a, p (f a) = p a) (l : List α) (i : Nat) :
    (l.modify i f).countP p = l.countP p := by
  induction l generalizing i with
  | nil => cases i <;> rfl
  | cons a l ih =>
    cases i with
    | zero => rw [List.modify_zero_cons, List.countP_cons, List.countP_cons, hf]
    | succ i => rw [List.modify_succ_cons, List.countP_cons, List.countP_cons, ih]

/-- A change that falsifies the predicate at one place takes one off the count. -/
theorem countP_modify_of_drop {p : α → Bool} {f : α → α} {l : List α} {i : Nat} {a : α} (hi : l[i]? = some a)
    (hbefore : p a = true) (hafter : p (f a) = false) : (l.modify i f).countP p + 1 = l.countP p := by
  induction l generalizing i with
  | nil => cases hi
  | cons b l ih =>
    cases i with
    | zero =>
      cases hi
      rw [List.modify_zero_cons, List.countP_cons, List.countP_cons, hbefore, hafter]
      rfl
    | succ i =>
      have hrec := ih (by simpa using hi)
      rw [List.modify_succ_cons, List.countP_cons, List.countP_cons, ← hrec]
      omega

/-- A map that keeps the predicate false takes something off the count where it falsifies it. -/
theorem countP_map_lt {p : α → Bool} {f : α → α} {l : List α} {a : α} (hf : ∀ a, p (f a) = true → p a = true)
    (hmem : a ∈ l) (hbefore : p a = true) (hafter : p (f a) = false) : (l.map f).countP p < l.countP p := by
  have hle : ∀ l : List α, (l.map f).countP p ≤ l.countP p := by
    intro l
    rw [List.countP_map]
    exact List.countP_mono_left fun b _ hb => hf b hb
  obtain ⟨front, rest, rfl⟩ := List.append_of_mem hmem
  have hfront := hle front
  have hrest := hle rest
  simp only [List.map_append, List.map_cons, List.countP_append, List.countP_cons, hbefore, hafter, if_true]
  simp only [Bool.false_eq_true, if_false]
  omega

/-- A potential of two digits goes down with its lexicographic order. -/
theorem lex_lt {level level' offset offset' base : Nat} (h : level' < level ∨ (level' = level ∧ offset' < offset))
    (hbase : offset' < base) : level' * base + offset' < level * base + offset := by
  rcases h with hlt | ⟨rfl, hlt⟩
  · have hmul : (level' + 1) * base ≤ level * base := Nat.mul_le_mul_right base hlt
    rw [Nat.add_mul, Nat.one_mul] at hmul
    omega
  · omega

end Potential
