import Mathlib.Data.List.Basic

/-! Writes over a part of a buffer. -/

namespace Overwrite

variable {α : Type} {buf items items' : List α} {pos n : Nat}

/-- The items are written at a position. -/
def write_items (buf : List α) (pos : Nat) (items : List α) : List α :=
  buf.take pos ++ items ++ buf.drop (pos + items.length)

/-- The part that `n` items from a position on take. -/
def window (buf : List α) (pos n : Nat) : List α := (buf.drop pos).take n

/-- What is written over a shorter write covers it. -/
theorem overwrite_overwrite (hle : items.length ≤ items'.length) (h : pos + items.length ≤ buf.length) :
    write_items (write_items buf pos items) pos items' = write_items buf pos items' := by
  have htake : (write_items buf pos items).take pos = buf.take pos := by
    rw [write_items, List.append_assoc, List.take_append_of_le_length (by rw [List.length_take]; omega), List.take_take, Nat.min_self]
  have hdrop : (write_items buf pos items).drop (pos + items'.length) = buf.drop (pos + items'.length) := by
    have hlength : (buf.take pos ++ items).length = pos + items.length := by
      rw [List.length_append, List.length_take]
      omega
    rw [write_items, List.drop_append, List.drop_eq_nil_of_le (by omega), List.nil_append, List.drop_drop, hlength]
    congr 1
    omega
  rw [write_items, htake, hdrop, write_items]

end Overwrite
