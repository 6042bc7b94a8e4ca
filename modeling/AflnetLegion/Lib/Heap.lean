import Mathlib.Data.List.Nodup
import Mathlib.Data.List.Perm.Subperm

/-- A memory of records. An address is the number of allocations made before its
own; a freed record leaves `none`. -/
structure Heap (α : Type) where
  cells : List (Option α)
  deriving DecidableEq, Repr

namespace Heap

variable {α : Type} (h : Heap α)

/-- The record at an address, if the address is in use. -/
def get? (p : Nat) : Option α := h.cells[p]?.join

/-- The memory and the address after an allocation. -/
def alloc (a : α) : Heap α × Nat := ({ cells := h.cells ++ [some a] }, h.cells.length)

/-- The record at an address is replaced. This writes nothing to an address that was never
allocated. -/
def put (p : Nat) (a : α) : Heap α := { cells := h.cells.set p (some a) }

/-- The record at an address is released. Its address is not given out again. -/
def free (p : Nat) : Heap α := { cells := h.cells.set p none }

variable {h} {p r : Nat} {a b : α}

theorem lt_of_get? (hp : h.get? p = some a) : p < h.cells.length := by
  unfold get? at hp
  by_contra hge
  rw [List.getElem?_eq_none (Nat.le_of_not_lt hge)] at hp
  cases hp

/-- The new record is found at the address that the allocation returns. -/
theorem get?_alloc_self (h : Heap α) (a : α) : (h.alloc a).1.get? (h.alloc a).2 = some a := by
  simp [get?, alloc]

/-- The new address was not in use. -/
theorem get?_alloc_eq_none (h : Heap α) (a : α) : h.get? (h.alloc a).2 = none := by
  simp [get?, alloc]

/-- Records already there stay. -/
theorem get?_alloc_of_some (b : α) (hp : h.get? p = some a) : (h.alloc b).1.get? p = some a := by
  have hlt := lt_of_get? hp
  unfold get? at hp ⊢
  rw [alloc, List.getElem?_append_left hlt, hp]

theorem get?_put_self (hp : h.get? p = some a) : (h.put p b).get? p = some b := by
  have hlt := lt_of_get? hp
  unfold get? put
  rw [List.getElem?_set_self hlt]
  rfl

/-- Writing one record leaves those at the other addresses as they are. -/
theorem get?_put_of_ne (hne : p ≠ r) : (h.put p b).get? r = h.get? r := by
  unfold get? put
  rw [List.getElem?_set_ne hne]

theorem get?_free_self (h : Heap α) (p : Nat) : (h.free p).get? p = none := by
  unfold get? free
  rcases Nat.lt_or_ge p h.cells.length with hlt | hge
  · rw [List.getElem?_set_self hlt]
    rfl
  · rw [List.getElem?_eq_none (by simpa using hge)]
    rfl

theorem get?_free_of_ne (hne : p ≠ r) : (h.free p).get? r = h.get? r := by
  unfold get? free
  rw [List.getElem?_set_ne hne]

/-- Distinct addresses in use are at most as many as the memory has cells. -/
theorem length_le_of_nodup {ps : List Nat} (hnodup : ps.Nodup) (hlive : ∀ p ∈ ps, ∃ a, h.get? p = some a) :
    ps.length ≤ h.cells.length := by
  have hbound : ∀ p ∈ ps, p ∈ List.range h.cells.length := by
    intro p hp
    obtain ⟨a, ha⟩ := hlive p hp
    exact List.mem_range.mpr (lt_of_get? ha)
  simpa using (List.subperm_of_subset hnodup hbound).length_le

end Heap
