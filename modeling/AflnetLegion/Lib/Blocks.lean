import AflnetLegion.Lib.Draws
import Mathlib.Data.List.Basic

/-! Operations on blocks of buffers, which fail if a block is not inside its buffer. -/

namespace Blocks

open Draws

variable {ε α : Type}

/-- The `n` items from `start` on. A read that leaves the buffer stops with the given cause, so
that a proof that it does not stop is a proof of its bounds. -/
def read (buf : List α) (start n : Nat) (cause : ε) : Draws ε (List α) := do
  require (start + n ≤ buf.length) cause
  pure ((buf.drop start).take n)

/-- The items are written at `pos` and the rest of the buffer stays. As for a read, leaving the
buffer is a failure and not an extension of it. -/
def write (buf : List α) (pos : Nat) (items : List α) (cause : ε) : Draws ε (List α) := do
  require (pos + items.length ≤ buf.length) cause
  pure (buf.take pos ++ items ++ buf.drop (pos + items.length))

/-- The `n` items of `src` from `start` on are written to `dst`. Both ranges have to be within
their lists, and may overlap if the lists are the same. -/
def copy (dst : List α) (pos : Nat) (src : List α) (start n : Nat) (cause : ε) : Draws ε (List α) := do
  let items ← read src start n cause
  write dst pos items cause

/-- The same item is written `n` times from `pos` on, as `memset` does for bytes. -/
def fill (dst : List α) (pos : Nat) (item : α) (n : Nat) (cause : ε) : Draws ε (List α) :=
  write dst pos (List.replicate n item) cause

variable {buf dst src items : List α} {pos start n : Nat} {cause : ε}

theorem read_eq (h : start + n ≤ buf.length) : read buf start n cause = pure ((buf.drop start).take n) := by
  rw [read, require, if_pos h]
  rfl

/-- A write within the buffer is a pure value: what was before it, the items, and what was
behind them. -/
theorem write_eq (h : pos + items.length ≤ buf.length) :
    write buf pos items cause = pure (buf.take pos ++ items ++ buf.drop (pos + items.length)) := by
  rw [write, require, if_pos h]
  rfl

/-- A read within the buffer returns as many items as were asked for. -/
theorem always_read (h : start + n ≤ buf.length) : Always (read buf start n cause) fun items => items.length = n := by
  rw [read_eq h]
  exact Always.pure (by simp; omega)

/-- A buffer keeps its length. -/
theorem always_write (h : pos + items.length ≤ buf.length) :
    Always (write buf pos items cause) fun result => result.length = buf.length := by
  rw [write_eq h]
  exact Always.pure (by simp; omega)

/-- A copy between two buffers, each of which has room for it, keeps the length of the one
written to. -/
theorem always_copy (hsrc : start + n ≤ src.length) (hdst : pos + n ≤ dst.length) :
    Always (copy dst pos src start n cause) fun result => result.length = dst.length :=
  (always_read hsrc).bind fun items hitems => always_write (by rw [hitems]; exact hdst)

theorem always_fill (item : α) (hdst : pos + n ≤ dst.length) :
    Always (fill dst pos item n cause) fun result => result.length = dst.length :=
  always_write (by rw [List.length_replicate]; exact hdst)

/-- A whole buffer is copied to the start of another one. -/
theorem copy_all_eq (h : src.length ≤ dst.length) :
    copy dst 0 src 0 src.length cause = pure (src ++ dst.drop src.length) := by
  have hsrc : 0 + src.length ≤ src.length := Nat.le_of_eq (Nat.zero_add _)
  rw [copy, read_eq hsrc, List.drop_zero, List.take_length]
  change write dst 0 src cause = _
  rw [write_eq (by omega), List.take_zero, List.nil_append, Nat.zero_add]

end Blocks
