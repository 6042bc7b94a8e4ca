import AflnetLegion.Lib.While

/-! The test case minimizer. -/

namespace aflnet

/-- The constants of `config.h` for the steps of the minimizer: into how many blocks the data
are divided at first, and the least size of a block. -/
def TRIM_START_STEPS : Nat := 16
def TMIN_SET_MIN_SIZE : Nat := 4
def TMIN_SET_STEPS : Nat := 128

/-- `while (val > ret) ret <<= 1`, which ends because the result is not 0. -/
def next_p2_from (val ret : Nat) : Nat :=
  if 0 < ret ∧ ret < val then next_p2_from val (ret * 2) else ret
termination_by val - ret

/-- The first power of two greater or equal, by doubling from 1 on. -/
def next_p2 (val : Nat) : Nat := next_p2_from val 1

/-- Where the minimizer is, with the variables of that stage. The stages come in this order, and
a pass starts again with the second one. -/
inductive Tmin.Stage where
  | normalize (set_len set_pos : Nat)
  | delete (del_len del_pos : Nat) (prev_del : Bool)
  | alphabet (alpha_map : List Nat) (i : Nat)
  | characters (tmp_buf : List UInt8) (i : Nat)
  | finalize_all
  deriving DecidableEq, Repr

/-- The first `in_len` bytes of `in_data`, and the variables of all stages. Files are no
longer than 10 MB, so that no length wraps. -/
structure Tmin where
  in_data : List UInt8
  cur_pass : Nat
  changed_any : Bool
  stage : Tmin.Stage
  deriving DecidableEq, Repr

namespace Tmin

/-- `in_len`. -/
def in_len (s : Tmin) : Nat := s.in_data.length

/-- The tested bytes become the data. -/
def accept (s : Tmin) (tmp_buf : List UInt8) : Tmin := { s with in_data := tmp_buf, changed_any := true }

/-- The minimizer goes on with another stage. -/
def go_to (s : Tmin) (stage : Stage) : Tmin := { s with stage }

/-- The data with `len` bytes set to '0'. -/
def zeroed (s : Tmin) (pos len : Nat) : List UInt8 :=
  s.in_data.take pos ++ List.replicate len 48 ++ s.in_data.drop (pos + len)

/-- The data without `len` bytes; near the end there is no tail. -/
def without (s : Tmin) (pos len : Nat) : List UInt8 := s.in_data.take pos ++ s.in_data.drop (pos + len)

/-- The data with all bytes of one value set to '0'. -/
def without_symbol (s : Tmin) (i : Nat) : List UInt8 := s.in_data.map fun c => if c.toNat = i then 48 else c

/-- `len` bytes of the data -/
def block (s : Tmin) (pos len : Nat) : List UInt8 := (s.in_data.drop pos).take len

/-- The label `next_del_blksize`: the deletion starts with blocks of at least one byte, from the
first byte on, and counts the block before that as deleted. -/
def next_del_blksize (s : Tmin) (del_len : Nat) : Tmin := s.go_to (.delete (if del_len = 0 then 1 else del_len) 0 true)

/-- The label `next_pass`, where no change has been made yet. The size of the blocks depends on
what is left of the data. -/
def next_pass (s : Tmin) : Tmin :=
  let s := { s with cur_pass := s.cur_pass + 1, changed_any := false }
  s.next_del_blksize (next_p2 (s.in_len / TRIM_START_STEPS))

/-- How often each byte occurs. -/
def count_symbols (s : Tmin) : List Nat := (List.range 256).map fun i => s.in_data.count (UInt8.ofNat i)

variable (run_target : List UInt8 → Bool)

/-- Block normalization: one round of its loop, or the next stage. A block that can be replaced
by zeros is, and one of zeros is passed over. -/
def normalize (s : Tmin) (set_len set_pos : Nat) : Tmin :=
  if set_pos < s.in_len then
    let use_len := min set_len (s.in_len - set_pos)
    let stage : Stage := .normalize set_len (set_pos + set_len)
    if (s.block set_pos use_len).all (· = 48) then s.go_to stage
    else if run_target (s.zeroed set_pos use_len) then (s.accept (s.zeroed set_pos use_len)).go_to stage
    else s.go_to stage
  else s.next_pass

/-- Block deletion: one round of its loop, the next smaller block size, or the next stage. A
block like the one before it, which could not be deleted, is not tried. -/
def delete (s : Tmin) (del_len del_pos : Nat) (prev_del : Bool) : Tmin :=
  if del_pos < s.in_len then
    let tail_len := s.in_len - del_pos - del_len
    -- a block like the one before it, which stayed
    if !prev_del ∧ tail_len ≠ 0 ∧ s.block (del_pos - del_len) del_len = s.block del_pos del_len then
      s.go_to (.delete del_len (del_pos + del_len) prev_del)
    else if run_target (s.without del_pos del_len) then
      (s.accept (s.without del_pos del_len)).go_to (.delete del_len del_pos true)
    else s.go_to (.delete del_len (del_pos + del_len) false)
  else if 1 < del_len ∧ 1 ≤ s.in_len then s.next_del_blksize (del_len / 2)
  else if 1 < s.cur_pass ∧ s.changed_any = false then s.go_to .finalize_all
  else s.go_to (.alphabet s.count_symbols 0)

/-- Alphabet minimization: one round of the loop over all bytes. Each byte that occurs is
replaced by '0' wherever it stands, if the target accepts that. -/
def alphabet (s : Tmin) (alpha_map : List Nat) (i : Nat) : Tmin :=
  if i < 256 then
    let stage : Stage := .alphabet alpha_map (i + 1)
    if i = 48 ∨ alpha_map.getD i 0 = 0 then s.go_to stage
    else if run_target (s.without_symbol i) then (s.accept (s.without_symbol i)).go_to stage
    else s.go_to stage
  else s.go_to (.characters s.in_data 0)

/-- Character minimization. A byte whose change is rejected is put back. If anything was changed
in this pass another one is made. -/
def characters (s : Tmin) (tmp_buf : List UInt8) (i : Nat) : Tmin :=
  if i < s.in_len then
    if tmp_buf.getD i 0 = 48 then s.go_to (.characters tmp_buf (i + 1))
    else if run_target (tmp_buf.set i 48) then
      (s.accept (s.in_data.set i 48)).go_to (.characters (tmp_buf.set i 48) (i + 1))
    else s.go_to (.characters tmp_buf (i + 1))
  else if s.changed_any then s.next_pass
  else s.go_to .finalize_all

/-- One step, in the stage that the minimizer is in. A stage is the position in its loop with
the local variables that the loop uses. -/
def step (s : Tmin) : Tmin :=
  match s.stage with
  | .normalize set_len set_pos => s.normalize run_target set_len set_pos
  | .delete del_len del_pos prev_del => s.delete run_target del_len del_pos prev_del
  | .alphabet alpha_map i => s.alphabet run_target alpha_map i
  | .characters tmp_buf i => s.characters run_target tmp_buf i
  | .finalize_all => s

/-- `changed_any` has no value yet, which `next_pass` is the first to give it. -/
def start (in_data : List UInt8) (changed_any : Bool) : Tmin :=
  let set_len := next_p2 (in_data.length / TMIN_SET_STEPS)
  { in_data, cur_pass := 0, changed_any,
    stage := .normalize (if set_len < TMIN_SET_MIN_SIZE then TMIN_SET_MIN_SIZE else set_len) 0 }

/-- The stages and their loops, step by step. Nothing bounds the number of passes but that they
go on only after a change. -/
def minimize : While Unit Tmin where
  more := fun s => s.stage ≠ .finalize_all
  body := fun s => pure (.yield (s.step run_target))

end Tmin

end aflnet
