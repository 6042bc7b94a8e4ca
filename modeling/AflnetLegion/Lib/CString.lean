import Mathlib.Data.List.Basic

/-! NUL-terminated strings in buffers. -/

namespace CString

/-- What can go wrong with a string in a buffer: an access leaves the buffer, or the search for
the NUL runs past its end. -/
inductive Fault where
  | out_of_bounds
  | unterminated
  deriving DecidableEq, Repr

/-- The bytes in front of the first NUL; looking for one leaves a buffer without any. -/
def text (buf : List UInt8) : Except Fault (List UInt8) :=
  if 0 ∈ buf then .ok (buf.takeWhile (· ≠ 0)) else .error .unterminated

/-- The number of bytes in front of the first NUL. It has no value for a buffer without one. -/
def strlen (buf : List UInt8) : Except Fault Nat := (text buf).map List.length

/-- A text and its NUL are written from `pos` on. There has to be room for both, and what was
behind stays. -/
def print (buf : List UInt8) (pos : Nat) (t : List UInt8) : Except Fault (List UInt8) :=
  if pos + t.length < buf.length then .ok (buf.take pos ++ t ++ 0 :: buf.drop (pos + t.length + 1))
  else .error .out_of_bounds

variable {buf before t rest : List UInt8}

theorem ok_bind {α β : Type} (x : α) (f : α → Except Fault β) : (Except.ok x >>= f) = f x := rfl

/-- What follows the first NUL is not part of the text, whatever it is. -/
theorem text_append_nul (h : 0 ∉ t) : text (t ++ 0 :: rest) = .ok t := by
  have hall : ∀ c ∈ t, decide (c ≠ 0) = true := by
    intro c hc
    exact decide_eq_true fun hzero => h (hzero ▸ hc)
  rw [text, if_pos (by simp), List.takeWhile_append_of_pos hall]
  simp

theorem text_of_not_mem (h : 0 ∉ buf) : text buf = .error .unterminated := if_neg h

theorem strlen_append_nul (h : 0 ∉ t) : strlen (t ++ 0 :: rest) = .ok t.length := by
  rw [strlen, text_append_nul h]
  rfl

/-- Printing behind a part of the buffer keeps that part. -/
theorem print_append (h : t.length < rest.length) :
    print (before ++ rest) before.length t = .ok (before ++ t ++ 0 :: rest.drop (t.length + 1)) := by
  rw [print, if_pos (by simpa using h), List.take_left, Nat.add_assoc, List.drop_append]
  simp

/-- A text needs one byte more than its length for the NUL. With less room behind the position
the print leaves the buffer. -/
theorem print_append_of_le (h : rest.length ≤ t.length) :
    print (before ++ rest) before.length t = .error .out_of_bounds := by
  rw [print, if_neg (by simpa using h)]

end CString
