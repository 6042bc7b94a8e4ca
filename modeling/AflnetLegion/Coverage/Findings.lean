import AflnetLegion.Coverage.Variable

namespace aflnet

/-- The limits of `config.h` on the files that are kept. Once a limit is reached, further
findings of its kind are counted in the totals only. -/
def KEEP_UNIQUE_HANG : Nat := 500
def KEEP_UNIQUE_CRASH : Nat := 5000

/-- A file that is written, by the number in its name. A queue entry is named with what was new
about it, and a crash with the signal. -/
inductive Saved where
  | queue (id : Nat) (hnb : UInt8)
  | hang (id : Nat)
  | crash (id kill_signal : Nat)
  deriving DecidableEq, Repr

/-- What `save_if_interesting` reads and changes. The three virgin maps are about runs that come
back, that time out and that crash; the files are listed in the order in which they are written.
-/
structure Findings where
  maps : Bitmaps
  virgin_tmout : List UInt8
  virgin_crash : List UInt8
  queue : List calibrated_entry
  queued_paths : Nat
  total_tmouts : Nat
  unique_tmouts : Nat
  unique_hangs : Nat
  total_crashes : Nat
  unique_crashes : Nat
  saved : List Saved

/-- `has_new_bits` on one of the two maps that are not `virgin_bits`, those of the crashes and
the timeouts. The change is not noted in `bitmap_changed`. -/
def check_map (o : Run_options) (trace_bits virgin_map : List UInt8) : UInt8 × List UInt8 :=
  let checked := has_new_bits o.word_size trace_bits { virgin_map, is_virgin_bits := false, bitmap_changed := false }
  (checked.1, checked.2.virgin_map)

/-- `simplify_trace(trace_bits)`, which is done to the trace in place. -/
def Findings.simplify (o : Run_options) (s : Findings) : Findings :=
  { s with maps := { s.maps with trace_bits := simplify_trace o.word_size s.maps.trace_bits } }

/-- A crash is written under the next number. The signal in the name of the file is that of the
last run, which is not always the one that is kept. -/
def Findings.write_crash (s : Findings) : Findings :=
  { s with saved := s.saved ++ [.crash s.unique_crashes s.maps.kill_signal], unique_crashes := s.unique_crashes + 1 }

/-- The code at `keep_as_crash`. Beyond the limit nothing is compared with the virgin map of the
crashes, which then keeps what it has; in dumb mode every crash counts as unique. -/
def Findings.keep_as_crash (o : Run_options) (s : Findings) : Findings :=
  let s := { s with total_crashes := s.total_crashes + 1 }
  if s.unique_crashes ≥ KEEP_UNIQUE_CRASH then s
  else if o.dumb_mode then s.write_crash
  else
    let s := s.simplify o
    let checked := check_map o s.maps.trace_bits s.virgin_crash
    let s := { s with virgin_crash := checked.2 }
    if checked.1 = 0 then s else s.write_crash

/-- A hang is written under the next number. -/
def Findings.write_hang (s : Findings) : Findings :=
  { s with saved := s.saved ++ [.hang s.unique_hangs], unique_hangs := s.unique_hangs + 1 }

/-- A timeout that is unique is tried again, with more time, before it is taken for a hang. If
it then crashes it is kept as a crash, whose coverage is that of the second run. -/
def Findings.confirm_hang (o : Run_options) (rerun : Execution) (s : Findings) : Findings :=
  let s := { s with unique_tmouts := s.unique_tmouts + 1 }
  if o.exec_tmout < o.hang_tmout then
    let s := { s with maps := s.maps.run_target o rerun }
    if rerun.stop_soon = false ∧ rerun.fault = .FAULT_CRASH then s.keep_as_crash o
    else if rerun.stop_soon = true ∨ rerun.fault ≠ .FAULT_TMOUT then s
    else s.write_hang
  else s.write_hang

/-- The case `FAULT_TMOUT` of the switch. Past the limit of hangs nothing is looked at, and in
dumb mode the virgin map is not asked. -/
def Findings.keep_timeout (o : Run_options) (rerun : Execution) (s : Findings) : Findings :=
  let s := { s with total_tmouts := s.total_tmouts + 1 }
  if s.unique_hangs ≥ KEEP_UNIQUE_HANG then s
  else if o.dumb_mode then s.confirm_hang o rerun
  else
    let s := s.simplify o
    let checked := check_map o s.maps.trace_bits s.virgin_tmout
    let s := { s with virgin_tmout := checked.2 }
    if checked.1 = 0 then s else s.confirm_hang o rerun

/-- The switch on the fault, which `FATAL` leaves at `FAULT_ERROR`. Runs without a fault end
here, unless they are what the crash mode looks for. -/
def Findings.switch_fault (o : Run_options) (run rerun : Execution) (s : Findings) : Option Findings :=
  match run.fault with
  | .FAULT_TMOUT => some (s.keep_timeout o rerun)
  | .FAULT_CRASH => some (s.keep_as_crash o)
  | .FAULT_ERROR => none
  | .FAULT_NONE | .FAULT_NOINST | .FAULT_NOBITS => some s

/-- The entry that joins the queue before its calibration. It has a checksum already, unlike an
entry of the initial corpus. -/
def queue_top (trace_bits : List UInt8) (hnb : UInt8) : calibrated_entry where
  exec_cksum := hash_trace trace_bits
  cal_failed := 0
  has_new_cov := hnb = 2
  var_behavior := false
  bitmap_size := 0
  handicap := 0

/-- The entry is appended to the queue and its file gets the number of the paths so far. New
coverage is counted here, before the entry is calibrated. -/
def Findings.add_to_queue (hnb : UInt8) (s : Findings) : Findings :=
  { s with
    maps := { s.maps with queued_with_cov := if hnb = 2 then s.maps.queued_with_cov + 1 else s.maps.queued_with_cov }
    queue := s.queue ++ [queue_top s.maps.trace_bits hnb]
    queued_paths := s.queued_paths + 1
    saved := s.saved ++ [.queue s.queued_paths hnb] }

/-- `save_if_interesting` for a run whose trace is in `trace_bits`. The calibration has runs of its own, and there may be a
rerun. -/
def Findings.save_if_interesting (o : Run_options) (run : Execution) (calibration : List Execution) (rerun : Execution)
    (queue_cycle : UInt32) (s : Findings) : Option (Bool × Findings) :=
  if run.fault = o.crash_mode then
    let checked := has_new_bits o.word_size s.maps.trace_bits s.maps.virgin_bits
    let s := { s with maps := { s.maps with virgin_bits := checked.2 } }
    if checked.1 = 0 then
      some (false, if o.crash_mode ≠ .FAULT_NONE then { s with total_crashes := s.total_crashes + 1 } else s)
    else do
      let s := s.add_to_queue checked.1
      let c ← calibrate_case o calibration (queue_cycle - 1) s.maps (queue_top s.maps.trace_bits checked.1)
      if c.fault = .FAULT_ERROR then none
      else
        let s ← { s with maps := c.maps, queue := s.queue.dropLast ++ [c.q] }.switch_fault o run rerun
        pure (true, s)
  else do
    let s ← s.switch_fault o run rerun
    pure (false, s)

/-- One run of the target in `common_fuzz_stuff`, and the runs that it may lead to: those of a
calibration, when the run is kept, and the one with more time, when it has timed out. -/
structure Outcome where
  run : Execution
  calibration : List Execution
  rerun : Execution
  queue_cycle : UInt32

/-- A run of the target, whose trace goes to `save_if_interesting`. -/
def Findings.step (o : Run_options) (out : Outcome) (s : Findings) : Option (Bool × Findings) :=
  { s with maps := s.maps.run_target o out.run }.save_if_interesting o out.run out.calibration out.rerun out.queue_cycle

/-- Which of the runs are kept, and what has been found at the end. A fault of `run_target`
itself ends the fuzzer, and there is no result. -/
def Findings.run (o : Run_options) : List Outcome → Findings → Option (List Bool × Findings)
  | [], s => some ([], s)
  | out :: outs, s => do
    let first ← s.step o out
    let rest ← Findings.run o outs first.2
    pure (first.1 :: rest.1, rest.2)

/-- The counters and the map of one kind of fault, and the numbers of the files that were written for it. -/
structure Tally where
  virgin_map : List UInt8
  total : Nat
  unique : Nat
  written : Nat
  ids : List Nat

namespace Tally

/-- One more fault of the kind, unique or not. -/
def count (t : Tally) : Tally := { t with total := t.total + 1 }

/-- The virgin map of the kind has been asked and written. -/
def clear (virgin_map : List UInt8) (t : Tally) : Tally := { t with virgin_map }

/-- The fault counts as unique. -/
def accept (t : Tally) : Tally := { t with unique := t.unique + 1 }

/-- A file is written, under the number of those before it. -/
def write (t : Tally) : Tally := { t with written := t.written + 1, ids := t.ids ++ [t.written] }

/-- The bits of the traces that only tell whether an edge is hit. -/
def simple_bits (n : Nat) : Finset Nat := (Finset.range n).image (8 * ·) ∪ (Finset.range n).image (8 * · + 7)

/-- No file is written twice, or past the limit, and each of the faults that count as unique has shown something new. -/
structure Valid (dumb_mode : Bool) (n limit : Nat) (t : Tally) : Prop where
  length : t.virgin_map.length = n
  written_le_limit : t.written ≤ limit
  written_le_unique : t.written ≤ t.unique
  unique_le_total : t.unique ≤ t.total
  ids : t.ids = List.range t.written
  unique_le_seen : dumb_mode = false → t.unique ≤ (seen t.virgin_map).card
  simple : seen t.virgin_map ⊆ simple_bits n

variable {dumb_mode : Bool} {n limit : Nat} {t : Tally} {virgin_map : List UInt8}

/-- A simplified trace has two bits for an edge, so no more than twice as many unique faults can
be told apart as there are edges. -/
theorem card_simple_bits_le (n : Nat) : (simple_bits n).card ≤ 2 * n := by
  have hunion := Finset.card_union_le ((Finset.range n).image (8 * ·)) ((Finset.range n).image (8 * · + 7))
  have hfirst := Finset.card_image_le (s := Finset.range n) (f := (8 * ·))
  have hsecond := Finset.card_image_le (s := Finset.range n) (f := (8 * · + 7))
  rw [Finset.card_range] at hfirst hsecond
  rw [simple_bits]
  omega

theorem shown_simplified_subset (hits : List UInt8) : shown (hits.map simplify_lookup) ⊆ simple_bits hits.length := by
  intro k hk
  have hlt := lt_of_mem_shown hk
  rw [List.length_map] at hlt
  obtain ⟨i, b, hi, hb, rfl⟩ := exists_of_lt hlt
  rw [simple_bits, Finset.mem_union, Finset.mem_image, Finset.mem_image]
  rcases (mem_shown_simplified hi hb).mp hk with ⟨rfl, -⟩ | ⟨rfl, -⟩
  · exact Or.inl ⟨i, Finset.mem_range.mpr hi, rfl⟩
  · exact Or.inr ⟨i, Finset.mem_range.mpr hi, rfl⟩

/-- A fault that is only counted keeps the tally valid. -/
theorem Valid.count (h : t.Valid dumb_mode n limit) : t.count.Valid dumb_mode n limit :=
  { h with unique_le_total := Nat.le_succ_of_le h.unique_le_total }

/-- A file is written below the limit, for a fault that was counted as unique before. -/
theorem Valid.write (h : t.Valid dumb_mode n limit) (hlimit : t.written < limit) (hunique : t.written < t.unique) :
    t.write.Valid dumb_mode n limit :=
  { h with
    written_le_limit := hlimit
    written_le_unique := hunique
    ids := by
      change t.ids ++ [t.written] = List.range (t.written + 1)
      rw [h.ids, List.range_succ] }

/-- What is seen is what was and what a simplified trace shows. -/
theorem Valid.clear {trace : List UInt8} (h : t.Valid dumb_mode n limit) (hlength : virgin_map.length = n) (htrace : trace.length = n)
    (hseen : seen virgin_map = seen t.virgin_map ∪ shown (trace.map simplify_lookup)) : (t.clear virgin_map).Valid dumb_mode n limit :=
  { h with
    length := hlength
    unique_le_seen := by
      intro hdumb
      refine (h.unique_le_seen hdumb).trans (Finset.card_le_card ?_)
      change seen t.virgin_map ⊆ seen virgin_map
      rw [hseen]
      exact Finset.subset_union_left
    simple := by
      change seen virgin_map ⊆ _
      rw [hseen]
      exact Finset.union_subset h.simple (htrace ▸ shown_simplified_subset trace) }

/-- A fault that shows something new has an element to itself in what is seen. -/
theorem Valid.accept_clear {trace : List UInt8} (h : t.Valid dumb_mode n limit) (htotal : t.unique < t.total)
    (hlength : virgin_map.length = n) (htrace : trace.length = n)
    (hseen : seen virgin_map = seen t.virgin_map ∪ shown (trace.map simplify_lookup))
    (hnew : ¬ shown (trace.map simplify_lookup) ⊆ seen t.virgin_map) : (t.clear virgin_map).accept.Valid dumb_mode n limit := by
  have hcleared := h.clear hlength htrace hseen
  have hmore : (seen t.virgin_map).card < (seen virgin_map).card := by
    refine Finset.card_lt_card (Finset.ssubset_iff_subset_ne.mpr ?_)
    rw [hseen]
    exact ⟨Finset.subset_union_left, fun heq => hnew (Finset.union_eq_left.mp heq.symm)⟩
  exact { hcleared with
    written_le_unique := Nat.le_succ_of_le h.written_le_unique
    unique_le_total := htotal
    unique_le_seen := fun hdumb => Nat.lt_of_le_of_lt (h.unique_le_seen hdumb) hmore }

/-- In dumb mode every fault counts as unique, and there is one for each that was counted. -/
theorem Valid.accept_dumb (h : t.Valid true n limit) (htotal : t.unique < t.total) : t.accept.Valid true n limit :=
  { h with
    written_le_unique := Nat.le_succ_of_le h.written_le_unique
    unique_le_total := htotal
    unique_le_seen := nofun }

end Tally

def Saved.queue_id : Saved → Option Nat
  | .queue id _ => some id
  | .hang _ | .crash _ _ => none

def Saved.hang_id : Saved → Option Nat
  | .hang id => some id
  | .queue _ _ | .crash _ _ => none

def Saved.crash_id : Saved → Option Nat
  | .crash id _ => some id
  | .queue _ _ | .hang _ => none

/-- The timeouts and hangs as one tally. -/
def Findings.hangs (s : Findings) : Tally :=
  ⟨s.virgin_tmout, s.total_tmouts, s.unique_tmouts, s.unique_hangs, s.saved.filterMap Saved.hang_id⟩

/-- Every crash that counts as unique is written. -/
def Findings.crashes (s : Findings) : Tally :=
  ⟨s.virgin_crash, s.total_crashes, s.unique_crashes, s.unique_crashes, s.saved.filterMap Saved.crash_id⟩

/-- What the switch on the fault leaves as it is. The trace itself is not among it, since a
crash or a timeout is simplified in place. -/
structure Findings.Keeps_queue (n : Nat) (s s' : Findings) : Prop where
  virgin_bits : s'.maps.virgin_bits = s.maps.virgin_bits
  first_trace : s'.maps.first_trace = s.maps.first_trace
  var_bytes : s'.maps.var_bytes = s.maps.var_bytes
  queue : s'.queue = s.queue
  queued_paths : s'.queued_paths = s.queued_paths
  ids : s'.saved.filterMap Saved.queue_id = s.saved.filterMap Saved.queue_id
  trace_bits : s'.maps.trace_bits.length = n

section faults

variable {o : Run_options} {n : Nat} {s s' s'' : Findings} {rerun : Execution} {trace virgin_map : List UInt8}

theorem Findings.Keeps_queue.trans (h : s.Keeps_queue n s') (h' : s'.Keeps_queue n s'') : s.Keeps_queue n s'' :=
  ⟨h'.virgin_bits.trans h.virgin_bits, h'.first_trace.trans h.first_trace, h'.var_bytes.trans h.var_bytes, h'.queue.trans h.queue,
    h'.queued_paths.trans h.queued_paths, h'.ids.trans h.ids, h'.trace_bits⟩

/-- `has_new_bits` on the map of a fault: it is not 0 exactly if the trace shows something that
the map has not seen, and the map has seen it then. -/
theorem check_map_spec (hsize : Word_sized o.word_size n) (htrace : trace.length = n) (hvirgin : virgin_map.length = n) :
    ((check_map o trace virgin_map).1 ≠ 0 ↔ ¬ shown trace ⊆ seen virgin_map) ∧
      seen (check_map o trace virgin_map).2 = seen virgin_map ∪ shown trace ∧ (check_map o trace virgin_map).2.length = n := by
  obtain ⟨hnew, -, hseen, hlength⟩ := has_new_bits_seen
    (c := { virgin_map, is_virgin_bits := false, bitmap_changed := false }) (htrace ▸ hsize.words) (hvirgin.trans htrace.symm)
  exact ⟨hnew, hseen, hlength.trans hvirgin⟩

/-- A crash that has been accepted is written below its limit, and the hangs are not touched. -/
theorem Findings.write_crash_spec {t : Findings} (hkeeps : s.Keeps_queue n t) (hhangs : t.hangs = s.hangs)
    (hlimit : t.crashes.written < KEEP_UNIQUE_CRASH) (h : t.crashes.accept.Valid o.dumb_mode n KEEP_UNIQUE_CRASH) :
    t.write_crash.crashes.Valid o.dumb_mode n KEEP_UNIQUE_CRASH ∧ t.write_crash.hangs = s.hangs ∧
      s.Keeps_queue n t.write_crash := by
  have hwritten : t.write_crash.crashes = t.crashes.accept.write := by
    simp [Findings.write_crash, Findings.crashes, Tally.accept, Tally.write, Saved.crash_id]
  have hsame : t.write_crash.hangs = t.hangs := by
    simp [Findings.write_crash, Findings.hangs, Saved.hang_id]
  have hqueue : t.Keeps_queue n t.write_crash :=
    ⟨rfl, rfl, rfl, rfl, rfl, by simp [Findings.write_crash, Saved.queue_id], hkeeps.trace_bits⟩
  refine ⟨?_, hsame.trans hhangs, hkeeps.trans hqueue⟩
  rw [hwritten]
  exact h.write hlimit (Nat.lt_succ_self _)

/-- The code at `keep_as_crash` is about crashes only. -/
theorem Findings.keep_as_crash_spec (hsize : Word_sized o.word_size n) (htrace : s.maps.trace_bits.length = n)
    (h : s.crashes.Valid o.dumb_mode n KEEP_UNIQUE_CRASH) :
    (s.keep_as_crash o).crashes.Valid o.dumb_mode n KEEP_UNIQUE_CRASH ∧
      (s.keep_as_crash o).hangs = s.hangs ∧ s.Keeps_queue n (s.keep_as_crash o) := by
  have hcount : s.crashes.count.Valid o.dumb_mode n KEEP_UNIQUE_CRASH := h.count
  have htotal : s.crashes.count.unique < s.crashes.count.total := Nat.lt_succ_of_le h.unique_le_total
  have hsimple : simplify_trace o.word_size s.maps.trace_bits = s.maps.trace_bits.map simplify_lookup :=
    simplify_trace_eq_map hsize.small (htrace ▸ hsize.words)
  have hlength : (s.maps.trace_bits.map simplify_lookup).length = n := (List.length_map _).trans htrace
  obtain ⟨hnew, hseen, hmap⟩ := check_map_spec hsize hlength h.length
  unfold Findings.keep_as_crash
  simp only
  split
  · exact ⟨hcount, rfl, rfl, rfl, rfl, rfl, rfl, rfl, htrace⟩
  · rename_i hlimit
    have hroom : s.unique_crashes < KEEP_UNIQUE_CRASH := Nat.lt_of_not_le hlimit
    split
    · rename_i hdumb
      refine Findings.write_crash_spec ?_ ?_ ?_ ?_
      · exact ⟨rfl, rfl, rfl, rfl, rfl, rfl, htrace⟩
      · rfl
      · exact hroom
      · rw [hdumb] at hcount ⊢
        exact hcount.accept_dumb htotal
    · simp only [Findings.simplify, hsimple]
      split
      · exact ⟨hcount.clear hmap htrace hseen, rfl, rfl, rfl, rfl, rfl, rfl, rfl, hlength⟩
      · rename_i hfound
        refine Findings.write_crash_spec ?_ ?_ ?_ ?_
        · exact ⟨rfl, rfl, rfl, rfl, rfl, rfl, hlength⟩
        · rfl
        · exact hroom
        · exact hcount.accept_clear htotal hmap htrace hseen (hnew.mp hfound)

/-- A hang is written below its limit, and the crashes are not touched. -/
theorem Findings.write_hang_spec {t : Findings} (hkeeps : s.Keeps_queue n t) (hcrashes : t.crashes = s.crashes)
    (hlimit : t.hangs.written < KEEP_UNIQUE_HANG) (hunique : t.hangs.written < t.hangs.unique)
    (h : t.hangs.Valid o.dumb_mode n KEEP_UNIQUE_HANG) :
    t.write_hang.hangs.Valid o.dumb_mode n KEEP_UNIQUE_HANG ∧ t.write_hang.crashes = s.crashes ∧ s.Keeps_queue n t.write_hang := by
  have hwritten : t.write_hang.hangs = t.hangs.write := by
    simp [Findings.write_hang, Findings.hangs, Tally.write, Saved.hang_id]
  have hsame : t.write_hang.crashes = t.crashes := by
    simp [Findings.write_hang, Findings.crashes, Saved.crash_id]
  have hqueue : t.Keeps_queue n t.write_hang :=
    ⟨rfl, rfl, rfl, rfl, rfl, by simp [Findings.write_hang, Saved.queue_id], hkeeps.trace_bits⟩
  refine ⟨?_, hsame.trans hcrashes, hkeeps.trans hqueue⟩
  rw [hwritten]
  exact h.write hlimit hunique

/-- A unique timeout that is counted, and the rerun, which may turn out to be a crash. -/
theorem Findings.confirm_hang_spec {t : Findings} (hsize : Word_sized o.word_size n) (hkeeps : s.Keeps_queue n t)
    (hcrashes : t.crashes = s.crashes) (hrerun : rerun.hits.length = n) (hlimit : t.hangs.written < KEEP_UNIQUE_HANG)
    (hunique : t.hangs.written ≤ t.hangs.unique) (h : t.hangs.accept.Valid o.dumb_mode n KEEP_UNIQUE_HANG)
    (hvalid : s.crashes.Valid o.dumb_mode n KEEP_UNIQUE_CRASH) :
    (t.confirm_hang o rerun).hangs.Valid o.dumb_mode n KEEP_UNIQUE_HANG ∧
      (t.confirm_hang o rerun).crashes.Valid o.dumb_mode n KEEP_UNIQUE_CRASH ∧ s.Keeps_queue n (t.confirm_hang o rerun) := by
  have htrace : (classify_counts o.word_size rerun.hits).length = n := by
    rw [Execution.classify_counts hsize hrerun, Execution.length_trace, hrerun]
  have hmore : t.hangs.written < t.hangs.unique + 1 := Nat.lt_succ_of_le hunique
  -- the rerun leaves a trace of its own
  let u : Findings := { t with
    unique_tmouts := t.unique_tmouts + 1
    maps := t.maps.run_target o rerun }
  have hkeeps' : s.Keeps_queue n u :=
    ⟨hkeeps.virgin_bits, hkeeps.first_trace, hkeeps.var_bytes, hkeeps.queue, hkeeps.queued_paths, hkeeps.ids, htrace⟩
  have hvalid' : u.crashes.Valid o.dumb_mode n KEEP_UNIQUE_CRASH := hcrashes ▸ hvalid
  unfold Findings.confirm_hang
  simp only
  split
  · split
    · obtain ⟨hafter, hsame, hqueue⟩ := Findings.keep_as_crash_spec (s := u) hsize htrace hvalid'
      exact ⟨hsame ▸ h, hafter, hkeeps'.trans hqueue⟩
    · split
      · exact ⟨h, hvalid', hkeeps'⟩
      · obtain ⟨hafter, hsame, hqueue⟩ := Findings.write_hang_spec (t := u) hkeeps' hcrashes hlimit hmore h
        exact ⟨hafter, hsame ▸ hvalid, hqueue⟩
  · obtain ⟨hafter, hsame, hqueue⟩ := Findings.write_hang_spec (t := { t with unique_tmouts := t.unique_tmouts + 1 })
      ⟨hkeeps.virgin_bits, hkeeps.first_trace, hkeeps.var_bytes, hkeeps.queue, hkeeps.queued_paths, hkeeps.ids, hkeeps.trace_bits⟩
      hcrashes hlimit hmore h
    exact ⟨hafter, hsame ▸ hvalid, hqueue⟩

/-- A timeout keeps both tallies valid, whatever the rerun gives: it may time out again, crash,
or come back. -/
theorem Findings.keep_timeout_spec (hsize : Word_sized o.word_size n) (htrace : s.maps.trace_bits.length = n)
    (hrerun : rerun.hits.length = n) (h : s.hangs.Valid o.dumb_mode n KEEP_UNIQUE_HANG)
    (hvalid : s.crashes.Valid o.dumb_mode n KEEP_UNIQUE_CRASH) :
    (s.keep_timeout o rerun).hangs.Valid o.dumb_mode n KEEP_UNIQUE_HANG ∧
      (s.keep_timeout o rerun).crashes.Valid o.dumb_mode n KEEP_UNIQUE_CRASH ∧ s.Keeps_queue n (s.keep_timeout o rerun) := by
  have hcount : s.hangs.count.Valid o.dumb_mode n KEEP_UNIQUE_HANG := h.count
  have htotal : s.hangs.count.unique < s.hangs.count.total := Nat.lt_succ_of_le h.unique_le_total
  have hsimple : simplify_trace o.word_size s.maps.trace_bits = s.maps.trace_bits.map simplify_lookup :=
    simplify_trace_eq_map hsize.small (htrace ▸ hsize.words)
  have hlength : (s.maps.trace_bits.map simplify_lookup).length = n := (List.length_map _).trans htrace
  obtain ⟨hnew, hseen, hmap⟩ := check_map_spec hsize hlength h.length
  unfold Findings.keep_timeout
  simp only
  split
  · exact ⟨hcount, hvalid, rfl, rfl, rfl, rfl, rfl, rfl, htrace⟩
  · rename_i hlimit
    have hroom : s.unique_hangs < KEEP_UNIQUE_HANG := Nat.lt_of_not_le hlimit
    split
    · rename_i hdumb
      refine Findings.confirm_hang_spec hsize ?_ ?_ hrerun ?_ ?_ ?_ hvalid
      · exact ⟨rfl, rfl, rfl, rfl, rfl, rfl, htrace⟩
      · rfl
      · exact hroom
      · exact h.written_le_unique
      · rw [hdumb] at hcount ⊢
        exact hcount.accept_dumb htotal
    · simp only [Findings.simplify, hsimple]
      split
      · exact ⟨hcount.clear hmap htrace hseen, hvalid, rfl, rfl, rfl, rfl, rfl, rfl, hlength⟩
      · rename_i hfound
        refine Findings.confirm_hang_spec hsize ?_ ?_ hrerun ?_ ?_ ?_ hvalid
        · exact ⟨rfl, rfl, rfl, rfl, rfl, rfl, hlength⟩
        · rfl
        · exact hroom
        · exact h.written_le_unique
        · exact hcount.accept_clear htotal hmap htrace hseen (hnew.mp hfound)

end faults

/-- What holds of the findings at any time, for maps of `n` bytes. `seeds` entries were in the
queue before the first run, and they are the only ones without a file of a run. -/
structure Findings.Valid (dumb_mode : Bool) (n seeds : Nat) (s : Findings) : Prop where
  sized : s.maps.Sized n
  hangs : s.hangs.Valid dumb_mode n KEEP_UNIQUE_HANG
  crashes : s.crashes.Valid dumb_mode n KEEP_UNIQUE_CRASH
  queue : s.queue.length = s.queued_paths
  seeds_le : seeds ≤ s.queued_paths
  ids : s.saved.filterMap Saved.queue_id = List.range' seeds (s.queued_paths - seeds)
  queued_le_seen : s.queued_paths ≤ seeds + (seen s.maps.virgin_bits.virgin_map).card

/-- Runs that are of the size of the maps and that could be started, and enough of them for the calibration. -/
structure Outcome.Regular (n : Nat) (out : Outcome) : Prop where
  run : out.run.hits.length = n
  started : out.run.fault ≠ .FAULT_ERROR
  calibration : ∀ run ∈ out.calibration, run.hits.length = n ∧ run.fault ≠ .FAULT_ERROR
  enough : CAL_CYCLES_LONG ≤ out.calibration.length
  rerun : out.rerun.hits.length = n

section save_if_interesting

variable {o : Run_options} {n seeds : Nat} {s s' : Findings} {out : Outcome} {run rerun : Execution}

/-- The invariant after a part that leaves the queue alone. -/
theorem Findings.Valid.of_keeps (h : s.Valid o.dumb_mode n seeds) (hkeeps : s.Keeps_queue n s')
    (hhangs : s'.hangs.Valid o.dumb_mode n KEEP_UNIQUE_HANG) (hcrashes : s'.crashes.Valid o.dumb_mode n KEEP_UNIQUE_CRASH) :
    s'.Valid o.dumb_mode n seeds where
  sized := ⟨by rw [hkeeps.virgin_bits, h.sized.virgin_bits], hkeeps.trace_bits, by rw [hkeeps.first_trace, h.sized.first_trace],
    by rw [hkeeps.var_bytes, h.sized.var_bytes]⟩
  hangs := hhangs
  crashes := hcrashes
  queue := by rw [hkeeps.queue, hkeeps.queued_paths, h.queue]
  seeds_le := by rw [hkeeps.queued_paths]; exact h.seeds_le
  ids := by rw [hkeeps.ids, hkeeps.queued_paths, h.ids]
  queued_le_seen := by rw [hkeeps.queued_paths, hkeeps.virgin_bits]; exact h.queued_le_seen

/-- The switch on the fault has a case for every fault that can be returned, and keeps the
invariant. -/
theorem Findings.Valid.switch_fault (h : s.Valid o.dumb_mode n seeds) (hsize : Word_sized o.word_size n)
    (hstarted : run.fault ≠ .FAULT_ERROR) (hrerun : rerun.hits.length = n) :
    ∃ s', s.switch_fault o run rerun = some s' ∧ s'.Valid o.dumb_mode n seeds ∧
      s'.maps.virgin_bits = s.maps.virgin_bits := by
  rw [Findings.switch_fault]
  cases hfault : run.fault with
  | FAULT_TMOUT =>
    obtain ⟨hhangs, hcrashes, hkeeps⟩ := Findings.keep_timeout_spec hsize h.sized.trace_bits hrerun h.hangs h.crashes
    exact ⟨_, rfl, h.of_keeps hkeeps hhangs hcrashes, hkeeps.virgin_bits⟩
  | FAULT_CRASH =>
    obtain ⟨hcrashes, hhangs, hkeeps⟩ := Findings.keep_as_crash_spec hsize h.sized.trace_bits h.crashes
    exact ⟨_, rfl, h.of_keeps hkeeps (hhangs ▸ h.hangs) hcrashes, hkeeps.virgin_bits⟩
  | FAULT_ERROR => exact absurd hfault hstarted
  | FAULT_NONE | FAULT_NOINST | FAULT_NOBITS => exact ⟨s, rfl, h, rfl⟩

/-- An entry that joins the queue and is calibrated. -/
theorem Findings.Valid.add_to_queue {checked : UInt8 × Coverage} {c : Calibration} (h : s.Valid o.dumb_mode n seeds)
    (hmore : (seen s.maps.virgin_bits.virgin_map).card < (seen checked.2.virgin_map).card)
    (hc : c.Sound n (seen checked.2.virgin_map)) (hnb : UInt8) :
    Findings.Valid o.dumb_mode n seeds
      { { s with maps := { s.maps with virgin_bits := checked.2 } }.add_to_queue hnb with
        maps := c.maps
        queue := ({ s with maps := { s.maps with virgin_bits := checked.2 } }.add_to_queue hnb).queue.dropLast ++ [c.q] } where
  sized := hc.sized
  hangs := by
    have hsame : ({ s with maps := { s.maps with virgin_bits := checked.2 } }.add_to_queue hnb).hangs = s.hangs := by
      simp [Findings.add_to_queue, Findings.hangs, Saved.hang_id]
    exact hsame ▸ h.hangs
  crashes := by
    have hsame : ({ s with maps := { s.maps with virgin_bits := checked.2 } }.add_to_queue hnb).crashes = s.crashes := by
      simp [Findings.add_to_queue, Findings.crashes, Saved.crash_id]
    exact hsame ▸ h.crashes
  queue := by simp [Findings.add_to_queue, h.queue]
  seeds_le := Nat.le_succ_of_le h.seeds_le
  ids := by
    have hseeds := h.seeds_le
    have hnext : s.queued_paths + 1 - seeds = s.queued_paths - seeds + 1 := by omega
    have hlast : seeds + (s.queued_paths - seeds) = s.queued_paths := by omega
    simp [Findings.add_to_queue, Saved.queue_id, h.ids, hnext, List.range'_concat, hlast]
  queued_le_seen := by
    have hcard := Finset.card_le_card hc.seen
    have hle := h.queued_le_seen
    change s.queued_paths + 1 ≤ seeds + (seen c.maps.virgin_bits.virgin_map).card
    omega

/-- `save_if_interesting` returns, keeps the invariant, and forgets nothing of what was seen. It
adds the run to the queue exactly if its fault is that of the mode and it shows something new.
-/
theorem Findings.Valid.save_if_interesting (h : s.Valid o.dumb_mode n seeds) (hsize : Word_sized o.word_size n) (hout : out.Regular n) :
    ∃ kept s', s.save_if_interesting o out.run out.calibration out.rerun out.queue_cycle = some (kept, s') ∧
      s'.Valid o.dumb_mode n seeds ∧ seen s.maps.virgin_bits.virgin_map ⊆ seen s'.maps.virgin_bits.virgin_map ∧
      (kept = true ↔ out.run.fault = o.crash_mode ∧ ¬ shown s.maps.trace_bits ⊆ seen s.maps.virgin_bits.virgin_map) ∧
      (out.run.fault = o.crash_mode → shown s.maps.trace_bits ⊆ seen s'.maps.virgin_bits.virgin_map) := by
  have htrace := h.sized.trace_bits
  have hvirgin := h.sized.virgin_bits
  obtain ⟨hnew, -, hseen, hlength⟩ := has_new_bits_seen (c := s.maps.virgin_bits) (htrace ▸ hsize.words) (hvirgin.trans htrace.symm)
  rw [Findings.save_if_interesting]
  obtain ⟨checked, hchecked⟩ : ∃ checked, has_new_bits o.word_size s.maps.trace_bits s.maps.virgin_bits = checked := ⟨_, rfl⟩
  rw [hchecked] at hnew hseen hlength
  have hsized : Bitmaps.Sized { s.maps with virgin_bits := checked.2 } n :=
    ⟨hlength.trans hvirgin, htrace, h.sized.first_trace, h.sized.var_bytes⟩
  simp only [hchecked]
  split
  · rename_i hmode
    by_cases hold : shown s.maps.trace_bits ⊆ seen s.maps.virgin_bits.virgin_map
    · have hzero : checked.1 = 0 := by
        by_contra hfound
        exact hnew.mp hfound hold
      have hsame : seen checked.2.virgin_map = seen s.maps.virgin_bits.virgin_map := by rw [hseen, Finset.union_eq_left.mpr hold]
      have hqueued := h.queued_le_seen
      rw [← hsame] at hqueued
      rw [if_pos hzero]
      refine ⟨false, _, rfl, ?_, ?_, by simp [hold], fun _ => ?_⟩
      · split
        · exact ⟨hsized, h.hangs, h.crashes.count, h.queue, h.seeds_le, h.ids, hqueued⟩
        · exact ⟨hsized, h.hangs, h.crashes, h.queue, h.seeds_le, h.ids, hqueued⟩
      · split <;> exact hsame.symm.subset
      · split <;> exact hold.trans hsame.symm.subset
    · have hfound : checked.1 ≠ 0 := hnew.mpr hold
      have hmore : (seen s.maps.virgin_bits.virgin_map).card < (seen checked.2.virgin_map).card := by
        refine Finset.card_lt_card (Finset.ssubset_iff_subset_ne.mpr ?_)
        rw [hseen]
        exact ⟨Finset.subset_union_left, fun heq => hold (Finset.union_eq_left.mp heq.symm)⟩
      have hsized' : ({ s with maps := { s.maps with virgin_bits := checked.2 } }.add_to_queue checked.1).maps.Sized n :=
        ⟨hsized.virgin_bits, hsized.trace_bits, hsized.first_trace, hsized.var_bytes⟩
      obtain ⟨c, hcase, hsound⟩ := calibrate_case_sound hsize hsized' hout.calibration hout.enough (out.queue_cycle - 1)
        (queue_top s.maps.trace_bits checked.1)
      obtain ⟨s', hswitch, hvalid, hsame⟩ := (h.add_to_queue hmore hsound checked.1).switch_fault hsize hout.started hout.rerun
      have hcovered : seen checked.2.virgin_map ⊆ seen s'.maps.virgin_bits.virgin_map := by
        rw [hsame]
        exact hsound.seen
      refine ⟨true, s', ?_, hvalid, ?_, by simp [hmode, hold], fun _ => ?_⟩
      · rw [if_neg hfound]
        refine Option.bind_eq_some_iff.mpr ⟨c, hcase, ?_⟩
        rw [if_neg hsound.fault]
        exact Option.bind_eq_some_iff.mpr ⟨s', hswitch, rfl⟩
      · exact (hseen ▸ Finset.subset_union_left).trans hcovered
      · exact (hseen ▸ Finset.subset_union_right).trans hcovered
  · rename_i hmode
    obtain ⟨s', hswitch, hvalid, hsame⟩ := h.switch_fault hsize hout.started hout.rerun
    refine ⟨false, s', by rw [hswitch]; rfl, hvalid, by rw [hsame], by simp [hmode], fun hfault => absurd hfault hmode⟩

/-- The same for a run whose trace has been classified by `run_target`. -/
theorem Findings.Valid.step (h : s.Valid o.dumb_mode n seeds) (hsize : Word_sized o.word_size n) (hout : out.Regular n) :
    ∃ kept s', s.step o out = some (kept, s') ∧ s'.Valid o.dumb_mode n seeds ∧
      seen s.maps.virgin_bits.virgin_map ⊆ seen s'.maps.virgin_bits.virgin_map ∧
      (kept = true ↔ out.run.fault = o.crash_mode ∧ ¬ shown out.run.trace ⊆ seen s.maps.virgin_bits.virgin_map) ∧
      (out.run.fault = o.crash_mode → shown out.run.trace ⊆ seen s'.maps.virgin_bits.virgin_map) := by
  have htrace : out.run.trace.length = n := out.run.length_trace.trans hout.run
  have hvalid : Findings.Valid o.dumb_mode n seeds { s with
      maps := { s.maps with trace_bits := out.run.trace, kill_signal := out.run.kill_signal.getD s.maps.kill_signal } } :=
    ⟨⟨h.sized.virgin_bits, htrace, h.sized.first_trace, h.sized.var_bytes⟩, h.hangs, h.crashes, h.queue, h.seeds_le, h.ids,
      h.queued_le_seen⟩
  rw [Findings.step, Bitmaps.run_target_eq hsize hout.run]
  exact hvalid.save_if_interesting hsize hout

end save_if_interesting

section run

variable {o : Run_options} {n seeds : Nat} {s : Findings} {outs : List Outcome}

/-- A run that is kept shows something that no earlier run of its kind has shown. -/
def Shows_new (o : Run_options) (before : Finset Nat) (outs : List Outcome) (j : Nat) : Prop :=
  ∃ out, outs[j]? = some out ∧ out.run.fault = o.crash_mode ∧ ∃ k ∈ shown out.run.trace, k ∉ before ∧
    ∀ i < j, ∀ earlier, outs[i]? = some earlier → earlier.run.fault = o.crash_mode → k ∉ shown earlier.run.trace

/-- The invariant after any runs. A run that was kept showed something that neither the runs
before it nor the seeds did. -/
theorem Findings.Valid.run (h : s.Valid o.dumb_mode n seeds) (hsize : Word_sized o.word_size n) (houts : ∀ out ∈ outs, out.Regular n) :
    ∃ kept s', Findings.run o outs s = some (kept, s') ∧ s'.Valid o.dumb_mode n seeds ∧
      seen s.maps.virgin_bits.virgin_map ⊆ seen s'.maps.virgin_bits.virgin_map ∧
      (∀ j, kept[j]? = some true → Shows_new o (seen s.maps.virgin_bits.virgin_map) outs j) ∧
      ∀ out ∈ outs, out.run.fault = o.crash_mode → shown out.run.trace ⊆ seen s'.maps.virgin_bits.virgin_map := by
  induction outs generalizing s with
  | nil => exact ⟨[], s, rfl, h, Finset.Subset.refl _, by simp, by simp⟩
  | cons out outs ih =>
    obtain ⟨hout, houts⟩ := List.forall_mem_cons.mp houts
    obtain ⟨first, s₁, hstep, h₁, hmore, hfirst, hcovered⟩ := h.step hsize hout
    obtain ⟨kept, s₂, hrun, h₂, hmore', hkept, hall⟩ := ih h₁ houts
    refine ⟨first :: kept, s₂, by simp [Findings.run, hstep, hrun], h₂, hmore.trans hmore', fun j hj => ?_, ?_⟩
    · cases j with
      | zero =>
        obtain ⟨hfault, hnew⟩ := hfirst.mp (by simpa using hj)
        obtain ⟨k, hk, hunseen⟩ := Finset.not_subset.mp hnew
        exact ⟨out, rfl, hfault, k, hk, hunseen, fun i hi => absurd hi (Nat.not_lt_zero i)⟩
      | succ j =>
        obtain ⟨later, hlater, hfault, k, hk, hunseen, hearlier⟩ := hkept j (by simpa using hj)
        refine ⟨later, hlater, hfault, k, hk, fun hold => hunseen (hmore hold), fun i hi earlier hi' hmode => ?_⟩
        cases i with
        | zero =>
          obtain rfl : out = earlier := by simpa using hi'
          exact fun hshown => hunseen (hcovered hmode hshown)
        | succ i => exact hearlier i (Nat.lt_of_succ_lt_succ hi) earlier hi' hmode
    · intro earlier hmem hmode
      rcases List.mem_cons.mp hmem with rfl | hmem
      · exact (hcovered hmode).trans hmore'
      · exact hall earlier hmem hmode

/-- The findings before the first run. The dry run has calibrated the entries that are in the queue, which leaves its marks on
the maps, but it keeps no file. -/
def Findings.start (n : Nat) (maps : Bitmaps) (queue : List calibrated_entry) : Findings where
  maps := maps
  virgin_tmout := List.replicate n 255
  virgin_crash := List.replicate n 255
  queue := queue
  queued_paths := queue.length
  total_tmouts := 0
  unique_tmouts := 0
  unique_hangs := 0
  total_crashes := 0
  unique_crashes := 0
  saved := []

/-- The findings before the first run satisfy the invariant, whatever the dry run has seen. -/
theorem Findings.valid_start {maps : Bitmaps} (hmaps : maps.Sized n) (dumb_mode : Bool) (queue : List calibrated_entry) :
    (Findings.start n maps queue).Valid dumb_mode n queue.length := by
  have htally : ∀ limit, Tally.Valid dumb_mode n limit ⟨List.replicate n 255, 0, 0, 0, []⟩ := fun limit =>
    ⟨List.length_replicate, Nat.zero_le _, Nat.le_refl _, Nat.le_refl _, rfl, fun _ => Nat.zero_le _, by
      rw [seen_fresh]
      exact Finset.empty_subset _⟩
  refine ⟨hmaps, htally _, htally _, rfl, Nat.le_refl _, ?_, Nat.le_add_right _ _⟩
  simp [Findings.start]

/-- At any time the files of each kind have the numbers up to their count, each once, there are at most 500 hangs and 5000
crashes, and no more unique timeouts than edges to hit or not to hit. -/
theorem findings_are_valid (hsize : Word_sized o.word_size n) (houts : ∀ out ∈ outs, out.Regular n) {maps : Bitmaps}
    (hmaps : maps.Sized n) (queue : List calibrated_entry) :
    ∃ kept s, Findings.run o outs (.start n maps queue) = some (kept, s) ∧
      s.saved.filterMap Saved.queue_id = List.range' queue.length (s.queued_paths - queue.length) ∧
      s.saved.filterMap Saved.hang_id = List.range s.unique_hangs ∧ s.saved.filterMap Saved.crash_id = List.range s.unique_crashes ∧
      s.unique_hangs ≤ KEEP_UNIQUE_HANG ∧ s.unique_hangs ≤ s.unique_tmouts ∧ s.unique_tmouts ≤ s.total_tmouts ∧
      s.unique_crashes ≤ KEEP_UNIQUE_CRASH ∧ s.unique_crashes ≤ s.total_crashes ∧
      (o.dumb_mode = false → s.unique_tmouts ≤ 2 * n ∧ s.unique_crashes ≤ 2 * n) ∧
      s.queue.length = s.queued_paths ∧ s.queued_paths ≤ queue.length + 8 * n := by
  obtain ⟨kept, s, hrun, h, -⟩ := (Findings.valid_start hmaps o.dumb_mode queue).run hsize houts
  have hsimple : ∀ t : Tally, ∀ limit, t.Valid o.dumb_mode n limit → o.dumb_mode = false → t.unique ≤ 2 * n := fun t limit ht hdumb =>
    (ht.unique_le_seen hdumb).trans ((Finset.card_le_card ht.simple).trans (Tally.card_simple_bits_le n))
  have hqueued := h.queued_le_seen
  have hcard := Finset.card_le_card (seen_subset s.maps.virgin_bits.virgin_map)
  rw [Finset.card_range, h.sized.virgin_bits] at hcard
  exact ⟨kept, s, hrun, h.ids, h.hangs.ids, h.crashes.ids, h.hangs.written_le_limit, h.hangs.written_le_unique, h.hangs.unique_le_total,
    h.crashes.written_le_limit, h.crashes.unique_le_total, fun hdumb => ⟨hsimple _ _ h.hangs hdumb, hsimple _ _ h.crashes hdumb⟩, h.queue,
    by omega⟩

/-- Every run that is kept shows a hit count of an edge that neither the maps at the start nor an earlier run has shown, and
whatever a run shows is noted. -/
theorem kept_runs_are_new (hsize : Word_sized o.word_size n) (houts : ∀ out ∈ outs, out.Regular n) {maps : Bitmaps}
    (hmaps : maps.Sized n) (queue : List calibrated_entry) :
    ∃ kept s, Findings.run o outs (.start n maps queue) = some (kept, s) ∧ (∀ j, kept[j]? = some true → Shows_new o (seen maps.virgin_bits.virgin_map) outs j) ∧
      ∀ out ∈ outs, out.run.fault = o.crash_mode → shown out.run.trace ⊆ seen s.maps.virgin_bits.virgin_map := by
  obtain ⟨kept, s, hrun, -, -, hkept, hall⟩ := (Findings.valid_start hmaps o.dumb_mode queue).run hsize houts
  exact ⟨kept, s, hrun, hkept, hall⟩

/-- A run of a target with a map of one word, the second edge of which has not been hit before. -/
def sample_outcome (fault : FaultCode) (kill_signal : Option Nat) : Outcome where
  run := { run_with [1, 4, 0, 0, 0, 0, 0, 0] with fault, kill_signal }
  calibration := List.replicate 40 (run_with [1, 4, 0, 0, 0, 0, 0, 0])
  rerun := run_with [1, 0, 0, 0, 0, 0, 0, 0]
  queue_cycle := 1

/-- One run comes back normally, one times out, and one crashes. -/
def sample_outcomes : List Outcome :=
  [sample_outcome .FAULT_NONE none, sample_outcome .FAULT_TMOUT (some SIGKILL), sample_outcome .FAULT_CRASH (some 11)]

/-- The maps after the dry run, in which the first edge has been hit once. -/
def seeded_maps : Bitmaps :=
  { fresh_maps 8 with
    virgin_bits := { virgin_map := [254, 255, 255, 255, 255, 255, 255, 255], is_virgin_bits := true, bitmap_changed := true } }

/-- The sample runs are of the size of the maps and could be started. -/
theorem sample_regular {fault : FaultCode} (h : fault ≠ .FAULT_ERROR) (kill_signal : Option Nat) :
    (sample_outcome fault kill_signal).Regular 8 where
  run := rfl
  started := h
  calibration := by
    intro run hrun
    rw [List.eq_of_mem_replicate hrun]
    exact ⟨rfl, nofun⟩
  enough := by simp [sample_outcome, CAL_CYCLES_LONG]
  rerun := rfl

theorem sample_runs_regular : ∀ out ∈ sample_outcomes, out.Regular 8 := by
  intro out hout
  simp only [sample_outcomes, List.mem_cons, List.not_mem_nil, or_false] at hout
  rcases hout with rfl | rfl | rfl <;> exact sample_regular (by decide) _

theorem sample_size : Word_sized flaky_options.word_size 8 := ⟨by decide, by decide, by decide, by decide, by decide⟩

theorem findings_of_three_runs : ∃ kept s, Findings.run flaky_options sample_outcomes (.start 8 seeded_maps [fresh_entry]) = some (kept, s) ∧
    s.saved.filterMap Saved.hang_id = List.range s.unique_hangs ∧ s.saved.filterMap Saved.crash_id = List.range s.unique_crashes ∧
    s.unique_tmouts ≤ 16 ∧ s.unique_crashes ≤ 16 ∧ s.queued_paths ≤ 65 := by
  obtain ⟨kept, s, hrun, -, hhangs, hcrashes, -, -, -, -, -, hsimple, -, hqueued⟩ :=
    findings_are_valid sample_size sample_runs_regular (⟨rfl, rfl, rfl, rfl⟩ : seeded_maps.Sized 8) [fresh_entry]
  exact ⟨kept, s, hrun, hhangs, hcrashes, (hsimple rfl).1, (hsimple rfl).2, hqueued⟩

theorem kept_of_three_runs : ∃ kept s, Findings.run flaky_options sample_outcomes (.start 8 seeded_maps [fresh_entry]) = some (kept, s) ∧
    (∀ j, kept[j]? = some true → Shows_new flaky_options (seen seeded_maps.virgin_bits.virgin_map) sample_outcomes j) ∧
    shown (sample_outcome .FAULT_NONE none).run.trace ⊆ seen s.maps.virgin_bits.virgin_map := by
  obtain ⟨kept, s, hrun, hkept, hall⟩ :=
    kept_runs_are_new sample_size sample_runs_regular (⟨rfl, rfl, rfl, rfl⟩ : seeded_maps.Sized 8) [fresh_entry]
  exact ⟨kept, s, hrun, hkept, hall _ (by simp [sample_outcomes]) rfl⟩

end run

end aflnet
