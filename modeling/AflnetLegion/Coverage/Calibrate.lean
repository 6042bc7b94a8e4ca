import AflnetLegion.Coverage.Seen
import AflnetLegion.Exec.ForkServer
import AflnetLegion.State.Novelty

namespace aflnet

/-- The constants of `config.h` that a calibration uses: the number of runs, the number of runs
once a variable byte was seen, and the seed of the checksums. -/
def CAL_CYCLES : Nat := 8
def CAL_CYCLES_LONG : Nat := 40
def HASH_CONST : UInt32 := 0xa5b35705

/-- The words that a trace is hashed by. `hash32` takes them two at a time, on a little-endian
machine. -/
def trace_words : List UInt8 → List UInt32
  | a :: b :: c :: d :: mem => ⟨Words.load 32 [a, b, c, d]⟩ :: trace_words mem
  | _ => []

/-- `hash32(trace_bits, MAP_SIZE, HASH_CONST)`, over the whole map. The size of a map is
divisible by 8, so unlike in the hash of a state sequence no byte is left out. -/
def hash_trace (trace_bits : List UInt8) : UInt32 := hash32 (trace_words trace_bits) (UInt32.ofNat trace_bits.length) HASH_CONST

/-- The options that decide what becomes of a run: the fault that is looked for, whether there
is instrumentation, how long a calibration is, the two time limits, and the size of the words
that the maps are read in. -/
structure Run_options where
  crash_mode : FaultCode
  dumb_mode : Bool
  fast_cal : Bool
  exec_tmout : UInt32
  hang_tmout : UInt32
  word_size : Nat

/-- What a run of the target leaves: the hit counts, which `run_target` classifies, and its other results. A run that is not
killed by a signal leaves `kill_signal` as it was, but for one that ends with `MSAN_ERROR`. -/
structure Execution where
  fault : FaultCode
  hits : List UInt8
  kill_signal : Option Nat
  stop_soon : Bool

/-- The fields of a queue entry that a calibration uses. The entry has no checksum yet when
`exec_cksum` is 0, as it has before its first calibration. -/
structure calibrated_entry where
  exec_cksum : UInt32
  cal_failed : UInt8
  has_new_cov : Bool
  var_behavior : Bool
  bitmap_size : UInt32
  handicap : UInt32
  deriving DecidableEq, Repr

/-- The maps and the counters that a calibration changes, and the signal that the last run was killed by which had one. -/
structure Bitmaps where
  virgin_bits : Coverage
  trace_bits : List UInt8
  kill_signal : Nat
  first_trace : List UInt8
  var_bytes : List UInt8
  var_byte_count : UInt32
  queued_with_cov : Nat
  queued_variable : Nat
  total_cal_cycles : Nat
  total_bitmap_size : Nat
  total_bitmap_entries : Nat

/-- What `run_target` writes: the classified trace, and the signal that the target died of. The
variable of the signal keeps the one of an earlier run if the target does not die of any. -/
def Bitmaps.run_target (o : Run_options) (run : Execution) (maps : Bitmaps) : Bitmaps :=
  { maps with trace_bits := classify_counts o.word_size run.hits, kill_signal := run.kill_signal.getD maps.kill_signal }

/-- The local variables of `calibrate_case` together with what it changes: the maps, the entry,
and the fault of the last run, which is what the function returns. -/
structure Calibration where
  maps : Bitmaps
  q : calibrated_entry
  stage_cur : Nat
  stage_max : Nat
  new_bits : UInt8
  var_detected : Bool
  fault : FaultCode

/-- `!var_bytes[i] && first_trace[i] != trace_bits[i]`: a byte is marked once, and only because
of a difference from the first trace. -/
def newly_variable (var first now : UInt8) : Bool := var = 0 ∧ first ≠ now

/-- The inner loop over the bytes: those that differ from the first trace are marked from now
on. Its effect on the number of runs is `any_marked`, which is read from the same three maps. -/
def mark_bytes : List UInt8 → List UInt8 → List UInt8 → List UInt8
  | var :: var_bytes, first :: first_trace, now :: trace_bits =>
    (if newly_variable var first now then 1 else var) :: mark_bytes var_bytes first_trace trace_bits
  | var_bytes, _, _ => var_bytes

/-- Whether the loop marks a byte. If it does, the calibration goes on for the long number of
cycles. -/
def any_marked : List UInt8 → List UInt8 → List UInt8 → Bool
  | var :: var_bytes, first :: first_trace, now :: trace_bits =>
    newly_variable var first now || any_marked var_bytes first_trace trace_bits
  | _, _, _ => false

/-- A checksum other than the one of the entry, which may have none yet. An entry without one
takes it from this run, whose trace becomes the first one; otherwise the bytes that differ from
the first trace are marked. -/
def Calibration.other_cksum (o : Run_options) (c : Calibration) : Calibration :=
  let checked := has_new_bits o.word_size c.maps.trace_bits c.maps.virgin_bits
  let c := { c with
    maps := { c.maps with virgin_bits := checked.2 }
    new_bits := if checked.1 > c.new_bits then checked.1 else c.new_bits }
  if c.q.exec_cksum ≠ 0 then
    { c with
      maps := { c.maps with var_bytes := mark_bytes c.maps.var_bytes c.maps.first_trace c.maps.trace_bits }
      stage_max := if any_marked c.maps.var_bytes c.maps.first_trace c.maps.trace_bits then CAL_CYCLES_LONG else c.stage_max
      var_detected := true }
  else
    { c with
      q := { c.q with exec_cksum := hash_trace c.maps.trace_bits }
      maps := { c.maps with first_trace := c.maps.trace_bits } }

/-- One run of the target; `done` is `goto abort_calibration`. A run that does not end as it
should aborts the calibration, and so does a first run that hits nothing. Only then are the
checksums compared. -/
def Calibration.round (o : Run_options) (run : Execution) (c : Calibration) : ForInStep Calibration :=
  let c := { c with maps := c.maps.run_target o run, fault := run.fault }
  if run.stop_soon ∨ run.fault ≠ o.crash_mode then .done c
  else if !o.dumb_mode ∧ c.stage_cur = 0 ∧ count_bytes c.maps.trace_bits = 0 then .done { c with fault := .FAULT_NOINST }
  else if c.q.exec_cksum ≠ hash_trace c.maps.trace_bits then .yield (c.other_cksum o)
  else .yield c

/-- The loop over the runs, and whether it was aborted. There must be runs as long as it goes
on, and their number can grow while it does: `stage_max` is read again in every round. -/
def Calibration.rounds (o : Run_options) : List Execution → Calibration → Option (Calibration × Bool)
  | [], c => if c.stage_cur < c.stage_max then none else some (c, false)
  | run :: runs, c =>
    if c.stage_cur < c.stage_max then
      match c.round o run with
      | .done c => some (c, true)
      | .yield c => rounds o runs { c with stage_cur := c.stage_cur + 1 }
    else some (c, false)

/-- The state before the first run. An entry that has a checksum was calibrated before, so its
trace is taken as the first one. -/
def Calibration.start (o : Run_options) (maps : Bitmaps) (q : calibrated_entry) : Calibration where
  maps := if q.exec_cksum ≠ 0 then { maps with first_trace := maps.trace_bits } else maps
  q := { q with cal_failed := q.cal_failed + 1 }
  stage_cur := 0
  stage_max := if o.fast_cal then 3 else CAL_CYCLES
  new_bits := 0
  var_detected := false
  fault := .FAULT_NONE

/-- What is noted once all the runs have been made. An entry of the initial corpus in which
nothing was new gets the fault `FAULT_NOBITS`, unless the mode is dumb. -/
def Calibration.complete (o : Run_options) (handicap : UInt32) (first_run : Bool) (c : Calibration) : Calibration :=
  let bitmap_size := count_bytes c.maps.trace_bits
  { c with
    maps := { c.maps with
      total_cal_cycles := c.maps.total_cal_cycles + c.stage_max
      total_bitmap_size := c.maps.total_bitmap_size + bitmap_size.toNat
      total_bitmap_entries := c.maps.total_bitmap_entries + 1 }
    q := { c.q with bitmap_size, handicap, cal_failed := 0 }
    fault := if !o.dumb_mode ∧ first_run ∧ c.fault = .FAULT_NONE ∧ c.new_bits = 0 then .FAULT_NOBITS else c.fault }

/-- `has_new_cov` is set once for an entry, and then the entry is counted. Only new edges count,
which is the value 2 of `has_new_bits`, and not new hit counts. -/
def Calibration.note_coverage (c : Calibration) : Calibration :=
  if c.new_bits = 2 ∧ c.q.has_new_cov = false then
    { c with
      q := { c.q with has_new_cov := true }
      maps := { c.maps with queued_with_cov := c.maps.queued_with_cov + 1 } }
  else c

/-- The same for `var_behavior`; the number of variable bytes is counted anew each time. -/
def Calibration.note_variable (c : Calibration) : Calibration :=
  if c.var_detected then
    let c := { c with maps := { c.maps with var_byte_count := count_bytes c.maps.var_bytes } }
    if c.q.var_behavior then c
    else
      { c with
        q := { c.q with var_behavior := true }
        maps := { c.maps with queued_variable := c.maps.queued_variable + 1 } }
  else c

/-- What follows the label `abort_calibration`. An aborted calibration comes here too, with what
its runs have noted so far. -/
def Calibration.settle (c : Calibration) : Calibration := c.note_coverage.note_variable

/-- The whole function. `runs` are the results of the target in the order of the calls, of which
only as many are used as there are cycles. -/
def calibrate_case (o : Run_options) (runs : List Execution) (handicap : UInt32) (maps : Bitmaps) (q : calibrated_entry) :
    Option Calibration := do
  let ended ← (Calibration.start o maps q).rounds o runs
  if ended.2 then pure ended.1.settle
  else pure (ended.1.complete o handicap (q.exec_cksum = 0)).settle

/-- The bytes that are marked as variable. -/
def marked (var_bytes : List UInt8) : Finset Nat := (Finset.range var_bytes.length).filter fun i => var_bytes.getD i 0 ≠ 0

/-- The bytes in which two traces differ. -/
def differing (first_trace trace_bits : List UInt8) : Finset Nat :=
  (Finset.range first_trace.length).filter fun i => first_trace.getD i 0 ≠ trace_bits.getD i 0

section marks

variable {var_bytes first_trace trace_bits : List UInt8} {i : Nat}

/-- Marking keeps the length of the map, also where the two traces are shorter. -/
theorem length_mark_bytes (var_bytes first_trace trace_bits : List UInt8) :
    (mark_bytes var_bytes first_trace trace_bits).length = var_bytes.length := by
  fun_induction mark_bytes var_bytes first_trace trace_bits with
  | case1 var var_bytes first first_trace now trace_bits ih => rw [List.length_cons, List.length_cons, ih]
  | case2 => rfl

theorem mem_marked : i ∈ marked var_bytes ↔ var_bytes.getD i 0 ≠ 0 := by
  rw [marked, Finset.mem_filter, Finset.mem_range, and_iff_right_of_imp]
  intro hne
  by_contra hi
  rw [List.getD_eq_getElem?_getD, List.getElem?_eq_none (Nat.le_of_not_lt hi)] at hne
  exact hne rfl

/-- A byte is marked afterwards if it was before or if the two traces differ there. -/
theorem getD_mark_bytes (hfirst : first_trace.length = var_bytes.length) (htrace : trace_bits.length = var_bytes.length) :
    (mark_bytes var_bytes first_trace trace_bits).getD i 0 ≠ 0 ↔
      var_bytes.getD i 0 ≠ 0 ∨ first_trace.getD i 0 ≠ trace_bits.getD i 0 := by
  induction var_bytes generalizing first_trace trace_bits i with
  | nil =>
    obtain rfl := List.eq_nil_of_length_eq_zero hfirst
    obtain rfl := List.eq_nil_of_length_eq_zero htrace
    simp [mark_bytes]
  | cons var var_bytes ih =>
    obtain ⟨first, first_trace, rfl⟩ := List.exists_cons_of_length_eq_add_one hfirst
    obtain ⟨now, trace_bits, rfl⟩ := List.exists_cons_of_length_eq_add_one htrace
    cases i with
    | zero =>
      rw [mark_bytes, List.getD_cons_zero, List.getD_cons_zero, List.getD_cons_zero, List.getD_cons_zero, newly_variable]
      by_cases hvar : var = 0 <;> by_cases hnow : first = now <;> simp [hvar, hnow]
    | succ i =>
      rw [mark_bytes, List.getD_cons_succ, List.getD_cons_succ, List.getD_cons_succ, List.getD_cons_succ]
      exact ih (Nat.succ.inj hfirst) (Nat.succ.inj htrace)

/-- The bytes in which two traces of one length differ, by their values. -/
theorem mem_differing (hlength : first_trace.length = trace_bits.length) :
    i ∈ differing first_trace trace_bits ↔ first_trace.getD i 0 ≠ trace_bits.getD i 0 := by
  rw [differing, Finset.mem_filter, Finset.mem_range, and_iff_right_of_imp]
  intro hne
  by_contra hi
  rw [List.getD_eq_getElem?_getD, List.getD_eq_getElem?_getD, List.getElem?_eq_none (Nat.le_of_not_lt hi),
    List.getElem?_eq_none (hlength ▸ Nat.le_of_not_lt hi)] at hne
  exact hne rfl

/-- In terms of sets, marking adds the bytes that differ. -/
theorem marked_mark_bytes (hfirst : first_trace.length = var_bytes.length) (htrace : trace_bits.length = var_bytes.length) :
    marked (mark_bytes var_bytes first_trace trace_bits) = marked var_bytes ∪ differing first_trace trace_bits := by
  ext i
  rw [Finset.mem_union, mem_marked, mem_marked, mem_differing (hfirst.trans htrace.symm), getD_mark_bytes hfirst htrace]

/-- More cycles are made if a byte is marked that was not before. -/
theorem any_marked_iff (hfirst : first_trace.length = var_bytes.length) (htrace : trace_bits.length = var_bytes.length) :
    any_marked var_bytes first_trace trace_bits = true ↔ ¬ differing first_trace trace_bits ⊆ marked var_bytes := by
  rw [Finset.not_subset]
  simp only [mem_marked, mem_differing (hfirst.trans htrace.symm), not_not]
  induction var_bytes generalizing first_trace trace_bits with
  | nil =>
    obtain rfl := List.eq_nil_of_length_eq_zero hfirst
    obtain rfl := List.eq_nil_of_length_eq_zero htrace
    simp [any_marked]
  | cons var var_bytes ih =>
    obtain ⟨first, first_trace, rfl⟩ := List.exists_cons_of_length_eq_add_one hfirst
    obtain ⟨now, trace_bits, rfl⟩ := List.exists_cons_of_length_eq_add_one htrace
    rw [any_marked, Bool.or_eq_true, ih (Nat.succ.inj hfirst) (Nat.succ.inj htrace), newly_variable, decide_eq_true_iff]
    constructor
    · rintro (⟨hvar, hnow⟩ | ⟨i, hnow, hvar⟩)
      · exact ⟨0, hnow, hvar⟩
      · exact ⟨i + 1, hnow, hvar⟩
    · rintro ⟨i, hnow, hvar⟩
      cases i with
      | zero => exact Or.inl ⟨hvar, hnow⟩
      | succ i => exact Or.inr ⟨i, hnow, hvar⟩

end marks

end aflnet
