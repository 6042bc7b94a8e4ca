import Mathlib.Data.List.Basic

/-! The loop of a program in persistent mode. -/

namespace aflnet

/-- The memory that the instrumentation writes: the shared map, by its bytes, and the location
of the last block. -/
structure Traced_memory where
  area : List UInt8
  prev_loc : UInt32
  deriving DecidableEq

/-- The static variables of `__afl_persistent_loop`, the memory, and whether the shared map is still traced. -/
structure Persistent where
  first_pass : Bool
  cycle_cnt : UInt32
  memory : Traced_memory
  traced : Bool
  deriving DecidableEq

/-- All bytes are zero, as after `memset`. -/
def Traced_memory.clear (memory : Traced_memory) : Traced_memory := { memory with area := List.replicate memory.area.length 0 }

/-- `__afl_area_ptr[0] = 1` and `__afl_prev_loc = 0`. -/
def Traced_memory.mark (memory : Traced_memory) : Traced_memory := { area := memory.area.set 0 1, prev_loc := 0 }

/-- What the fuzzer does to the shared map between two runs: `memset(trace_bits, 0, MAP_SIZE)` at the beginning of `run_target`,
which is before the fork server is told to continue the process. -/
def run_target_memset (memory : Traced_memory) : Traced_memory := memory.clear

/-- Whether there is another pass. The first one begins with a map that the program clears itself. Before a later one the
process stops with `raise(SIGSTOP)`, and `while_stopped` is what others do to its memory until it goes on. -/
def afl_persistent_loop (is_persistent : Bool) (max_cnt : UInt32) (while_stopped : Traced_memory → Traced_memory) (s : Persistent) :
    Bool × Persistent :=
  if s.first_pass then
    (true, { s with
      memory := if is_persistent then s.memory.clear.mark else s.memory
      cycle_cnt := max_cnt
      first_pass := false })
  else if is_persistent then
    let s := { s with cycle_cnt := s.cycle_cnt - 1 }
    if s.cycle_cnt ≠ 0 then (true, { s with memory := (while_stopped s.memory).mark })
    else (false, { s with traced := false })
  else (false, s)

/-- `while (__AFL_LOOP(max_cnt))` in a program that is fuzzed, with what a pass does to the memory: the memory before each pass,
and the state in the end. -/
def persistent_passes (is_persistent : Bool) (max_cnt : UInt32) (pass : Traced_memory → Traced_memory) :
    Nat → Persistent → Option (List Traced_memory × Persistent)
  | 0, _ => none
  | fuel + 1, s =>
    let (more, s) := afl_persistent_loop is_persistent max_cnt run_target_memset s
    if more then do
      let (memories, last) ← persistent_passes is_persistent max_cnt pass fuel { s with memory := pass s.memory }
      some (s.memory :: memories, last)
    else some ([], s)

/-- When the program starts: no call of `__afl_persistent_loop` has been made, and no pass. -/
def Persistent.start (memory : Traced_memory) : Persistent := { first_pass := true, cycle_cnt := 0, memory, traced := true }

/-- A map of `size` bytes with nothing but the mark in it. -/
def clean_slate (size : Nat) : Traced_memory := { area := (List.replicate size 0).set 0 1, prev_loc := 0 }

variable {max_cnt : UInt32} {pass : Traced_memory → Traced_memory} {s : Persistent} {size more : Nat}

/-- The program clears the map and marks it before the first pass. -/
theorem clear_mark (memory : Traced_memory) : memory.clear.mark = clean_slate memory.area.length := rfl

/-- Between two passes the fuzzer clears the map, and the program marks it. -/
theorem memset_mark (memory : Traced_memory) : (run_target_memset memory).mark = clean_slate memory.area.length := rfl

/-- The passes that are left after one has been made. -/
theorem passes_left (hpass : ∀ memory, (pass memory).area.length = memory.area.length) (hfirst : s.first_pass = false)
    (hsize : s.memory.area.length = size) (hleft : (s.cycle_cnt - 1).toNat = more) :
    ∃ last, persistent_passes true max_cnt pass (more + 1) s = some (List.replicate more (clean_slate size), last) ∧ last.traced = false := by
  induction more generalizing s with
  | zero =>
    have hzero : s.cycle_cnt - 1 = 0 := UInt32.toNat_inj.mp hleft
    refine ⟨{ s with cycle_cnt := s.cycle_cnt - 1, traced := false }, ?_, rfl⟩
    rw [persistent_passes, afl_persistent_loop, hfirst]
    simp only [hzero, Bool.false_eq_true, if_false, if_true, ne_eq, not_true_eq_false]
    rfl
  | succ more ih =>
    have hne : s.cycle_cnt - 1 ≠ 0 := fun hzero => by
      rw [hzero] at hleft
      cases hleft
    have hnext : (s.cycle_cnt - 1 - 1).toNat = more := by
      have hle : 1 ≤ s.cycle_cnt - 1 := by
        rw [UInt32.le_iff_toNat_le, hleft]
        exact Nat.succ_le_succ (Nat.zero_le more)
      rw [UInt32.toNat_sub_of_le _ _ hle, hleft]
      rfl
    let after : Persistent := { s with cycle_cnt := s.cycle_cnt - 1, memory := pass (run_target_memset s.memory).mark }
    have hafter : after.memory.area.length = size := by
      change (pass (run_target_memset s.memory).mark).area.length = size
      rw [hpass, memset_mark, clean_slate, List.length_set, List.length_replicate, hsize]
    obtain ⟨last, hrun, htraced⟩ := ih (s := after) hfirst hafter hnext
    refine ⟨last, ?_, htraced⟩
    rw [persistent_passes, afl_persistent_loop, hfirst]
    simp only [hne, Bool.false_eq_true, if_false, if_true, ne_eq, not_false_eq_true]
    have hrun' : persistent_passes true max_cnt pass (more + 1) { s with cycle_cnt := s.cycle_cnt - 1, memory := pass (run_target_memset s.memory).mark } = _ := hrun
    simp only [hfirst] at hrun'
    rw [hrun', memset_mark, hsize]
    rfl

/-- A persistent program makes as many passes as it is told to, and 2^32 if it is told 0. Each begins with the same
memory, and what follows the loop is not traced. -/
theorem persistent_passes_eq (max_cnt : UInt32) (pass : Traced_memory → Traced_memory)
    (hpass : ∀ memory, (pass memory).area.length = memory.area.length) (memory : Traced_memory) :
    ∃ last, persistent_passes true max_cnt pass ((max_cnt - 1).toNat + 2) (.start memory) =
        some (List.replicate ((max_cnt - 1).toNat + 1) (clean_slate memory.area.length), last) ∧ last.traced = false := by
  let first : Persistent := { first_pass := false, cycle_cnt := max_cnt, memory := pass memory.clear.mark, traced := true }
  have hsize : first.memory.area.length = memory.area.length := by
    change (pass memory.clear.mark).area.length = memory.area.length
    rw [hpass, clear_mark, clean_slate, List.length_set, List.length_replicate]
  obtain ⟨last, hrun, htraced⟩ := passes_left (s := first) hpass rfl hsize (rfl : (max_cnt - 1).toNat = _)
  refine ⟨last, ?_, htraced⟩
  rw [persistent_passes, afl_persistent_loop, Persistent.start, if_pos rfl]
  simp only [if_true]
  rw [hrun, clear_mark]
  rfl

theorem passes_of_three : ∃ last, persistent_passes true 3 id 4 (.start { area := [7, 7], prev_loc := 5 }) =
    some (List.replicate 3 (clean_slate 2), last) ∧ last.traced = false :=
  persistent_passes_eq 3 id (fun _ => rfl) { area := [7, 7], prev_loc := 5 }

/-- Any other program makes one pass, with the memory as it is. -/
theorem single_pass (max_cnt : UInt32) (pass : Traced_memory → Traced_memory) (memory : Traced_memory) :
    ∃ last, persistent_passes false max_cnt pass 2 (.start memory) = some ([memory], last) := ⟨_, rfl⟩

end aflnet
