import Mathlib.Data.List.Basic

namespace Table

variable {α : Type} {table : List (List α)} {rows columns i j : Nat}

/-- The cell of a table that is a list of rows. -/
def get? (table : List (List α)) (i j : Nat) : Option α := (table[i]?.getD [])[j]?

/-- All rows have the same length. A table without rows is rectangular for any number of
columns. -/
structure Rectangular (table : List (List α)) (rows columns : Nat) : Prop where
  length : table.length = rows
  row_length : ∀ row ∈ table, row.length = columns

theorem rectangular_nil (columns : Nat) : Rectangular ([] : List (List α)) 0 columns :=
  ⟨rfl, fun _ hrow => absurd hrow List.not_mem_nil⟩

/-- Every cell within the dimensions is there, and no other one. -/
theorem Rectangular.isSome_get?_iff (h : Rectangular table rows columns) :
    (get? table i j).isSome = true ↔ i < rows ∧ j < columns := by
  unfold get?
  cases hrow : table[i]? with
  | none =>
    have hi : rows ≤ i := h.length ▸ List.getElem?_eq_none_iff.mp hrow
    simp [Nat.not_lt.mpr hi]
  | some row =>
    obtain ⟨hi, rfl⟩ := List.getElem?_eq_some_iff.mp hrow
    have hlength := h.row_length table[i] (List.getElem_mem hi)
    rw [h.length] at hi
    simp [hi, hlength]

/-- Writing a cell keeps the dimensions. -/
theorem Rectangular.modify (h : Rectangular table rows columns) (i j : Nat) (a : α) :
    Rectangular (table.modify i fun row => row.set j a) rows columns where
  length := by rw [List.length_modify, h.length]
  row_length := by
    intro row hrow
    obtain ⟨k, hk, rfl⟩ := List.mem_iff_getElem.mp hrow
    have hold := h.row_length (table.get ⟨k, by simpa using hk⟩) (List.get_mem ..)
    rw [List.getElem_modify]
    split
    · rw [List.length_set]
      exact hold
    · exact hold

/-- The table with the given dimensions and cells. -/
def build (rows columns : Nat) (f : Nat → Nat → α) : List (List α) :=
  (List.range rows).map fun i => (List.range columns).map (f i)

/-- A table that is built has the dimensions it was built with. -/
theorem rectangular_build (rows columns : Nat) (f : Nat → Nat → α) : Rectangular (build rows columns f) rows columns where
  length := by simp [build]
  row_length := by
    intro row hrow
    obtain ⟨i, _, rfl⟩ := List.mem_map.mp hrow
    simp

/-- The cells of a table that is built are the given ones. -/
theorem get?_build (f : Nat → Nat → α) (hi : i < rows) (hj : j < columns) : get? (build rows columns f) i j = some (f i j) := by
  simp [get?, build, hi, hj]

end Table
