import AflnetLegion.Coverage.Calibrate

namespace aflnet

/-- All maps of the program have one size, which is that of the shared map. The source allocates
them as arrays of `MAP_SIZE` bytes. -/
structure Bitmaps.Sized (maps : Bitmaps) (n : Nat) : Prop where
  virgin_bits : maps.virgin_bits.virgin_map.length = n
  trace_bits : maps.trace_bits.length = n
  first_trace : maps.first_trace.length = n
  var_bytes : maps.var_bytes.length = n

/-- The trace of a run, classified. -/
def Execution.trace (run : Execution) : List UInt8 := run.hits.map count_class_lookup8

/-- What a run adds to the coverage and to the variable bytes, given the checksum and the trace of the first one. -/
def Execution.found (cksum : UInt32) (run : Execution) : Finset Nat := if hash_trace run.trace = cksum then ∅ else shown run.trace

/-- The bytes that a run marks as variable: those in which it differs from the first trace,
which are looked at only if its checksum is another one. -/
def Execution.varied (cksum : UInt32) (first_trace : List UInt8) (run : Execution) : Finset Nat :=
  if hash_trace run.trace = cksum then ∅ else differing first_trace run.trace

/-- A run that lets the calibration go on: it comes back with the fault that is looked for, no
stop was asked for, and its trace has the size of the maps. -/
structure Execution.Regular (o : Run_options) (n : Nat) (run : Execution) : Prop where
  fault : run.fault = o.crash_mode
  stop_soon : run.stop_soon = false
  length : run.hits.length = n

section rounds

variable {o : Run_options} {n : Nat} {run : Execution} {runs : List Execution} {c c' : Calibration} {cksum : UInt32} {first_trace : List UInt8}

/-- The trace of a run is that of its hit counts, classified byte by byte. -/
theorem Execution.classify_counts (hsize : Word_sized o.word_size n) (hlength : run.hits.length = n) :
    aflnet.classify_counts o.word_size run.hits = run.trace :=
  classify_counts_eq_map hsize.even (hlength ▸ hsize.words)

/-- A run of the target writes the classified trace, and the signal if it was killed by one. -/
theorem Bitmaps.run_target_eq (hsize : Word_sized o.word_size n) (hlength : run.hits.length = n) (maps : Bitmaps) :
    maps.run_target o run = { maps with trace_bits := run.trace, kill_signal := run.kill_signal.getD maps.kill_signal } := by
  rw [Bitmaps.run_target, Execution.classify_counts hsize hlength]

/-- A state of the loop in which the entry has a checksum, that of its first trace. From then on
each run is compared with it. -/
structure Calibration.Referenced (c : Calibration) (n : Nat) (cksum : UInt32) (first_trace : List UInt8) : Prop where
  sized : c.maps.Sized n
  exec_cksum : c.q.exec_cksum = cksum
  nonzero : cksum ≠ 0
  first_trace : c.maps.first_trace = first_trace

/-- What a round changes when its run is regular: the coverage takes in what the run shows, the
bytes in which it varies are marked, and more rounds are planned if one of them is new. -/
structure Calibration.Advances (c c' : Calibration) (cksum : UInt32) (first_trace : List UInt8) (run : Execution) : Prop where
  q : c'.q = c.q
  fault : c'.fault = run.fault
  stage_cur : c'.stage_cur = c.stage_cur
  trace_bits : c'.maps.trace_bits = run.trace
  stage_max : c'.stage_max = if run.varied cksum first_trace ⊆ marked c.maps.var_bytes then c.stage_max else CAL_CYCLES_LONG
  marked : marked c'.maps.var_bytes = aflnet.marked c.maps.var_bytes ∪ run.varied cksum first_trace
  seen : seen c'.maps.virgin_bits.virgin_map = aflnet.seen c.maps.virgin_bits.virgin_map ∪ run.found cksum
  var_detected : c'.var_detected = (c.var_detected || decide (hash_trace run.trace ≠ cksum))
  new_bits : c'.new_bits = 0 ↔ c.new_bits = 0 ∧ run.found cksum ⊆ aflnet.seen c.maps.virgin_bits.virgin_map

/-- The greater of two values of `has_new_bits` is 0 only if both are. -/
theorem greater_eq_zero_iff {a b : UInt8} : (if a > b then a else b) = 0 ↔ b = 0 ∧ a = 0 := by
  split
  · rename_i hlt
    refine ⟨fun h => ?_, And.right⟩
    rw [h] at hlt
    exact absurd hlt (UInt8.not_lt_zero)
  · rename_i hle
    refine ⟨fun h => ⟨h, ?_⟩, And.left⟩
    rw [h] at hle
    exact UInt8.le_zero_iff.mp (UInt8.not_lt.mp hle)

/-- What a checksum other than that of the entry does: the coverage takes the trace in, the
bytes that differ are marked, and more cycles are planned if one of them is new. -/
theorem Calibration.Referenced.other_cksum (h : c.Referenced n cksum first_trace) (hsize : Word_sized o.word_size n) :
    (c.other_cksum o).Referenced n cksum first_trace ∧ (c.other_cksum o).q = c.q ∧ (c.other_cksum o).fault = c.fault ∧
      (c.other_cksum o).stage_cur = c.stage_cur ∧ (c.other_cksum o).maps.trace_bits = c.maps.trace_bits ∧
      (c.other_cksum o).stage_max =
        (if differing first_trace c.maps.trace_bits ⊆ marked c.maps.var_bytes then c.stage_max else CAL_CYCLES_LONG) ∧
      marked (c.other_cksum o).maps.var_bytes = marked c.maps.var_bytes ∪ differing first_trace c.maps.trace_bits ∧
      seen (c.other_cksum o).maps.virgin_bits.virgin_map = seen c.maps.virgin_bits.virgin_map ∪ shown c.maps.trace_bits ∧
      (c.other_cksum o).var_detected = true ∧
      ((c.other_cksum o).new_bits = 0 ↔ c.new_bits = 0 ∧ shown c.maps.trace_bits ⊆ seen c.maps.virgin_bits.virgin_map) := by
  obtain ⟨⟨hvirgin, htrace, hfirst, hvar⟩, hcksum, hnonzero, hreference⟩ := h
  obtain ⟨hnew, -, hseen, hlength⟩ := has_new_bits_seen (c := c.maps.virgin_bits) (htrace ▸ hsize.words) (hvirgin.trans htrace.symm)
  have hentry : c.q.exec_cksum ≠ 0 := hcksum ▸ hnonzero
  have hmarks := any_marked_iff (hfirst.trans hvar.symm) (htrace.trans hvar.symm)
  subst hreference
  rw [Calibration.other_cksum]
  simp only [if_pos hentry]
  refine ⟨⟨⟨hlength.trans hvirgin, htrace, hfirst, (length_mark_bytes ..).trans hvar⟩, hcksum, hnonzero, rfl⟩, trivial, trivial, trivial,
    trivial, ?_, marked_mark_bytes (hfirst.trans hvar.symm) (htrace.trans hvar.symm), hseen, trivial, ?_⟩
  · by_cases hold : differing c.maps.first_trace c.maps.trace_bits ⊆ marked c.maps.var_bytes
    · rw [if_pos hold, if_neg fun hmore => hmarks.mp hmore hold]
    · rw [if_neg hold, if_pos (hmarks.mpr hold)]
  · rw [greater_eq_zero_iff, not_iff_not.mp hnew]

theorem Execution.length_trace (run : Execution) : run.trace.length = run.hits.length := List.length_map _

/-- A run that hits an edge is not taken for one without instrumentation. -/
theorem Execution.count_bytes_ne_zero (hsize : Word_sized o.word_size n) (hlength : run.hits.length = n)
    (hhit : ∃ count ∈ run.hits, count ≠ 0) : count_bytes run.trace ≠ 0 := by
  obtain ⟨count, hmem, hne⟩ := hhit
  have htrace : run.trace.length = n := run.length_trace.trans hlength
  have hcount := toNat_count_bytes (htrace ▸ hsize.fours) (htrace ▸ hsize.room)
  have hpos : 0 < run.trace.countP (· ≠ 0) :=
    List.countP_pos_iff.mpr ⟨_, List.mem_map_of_mem hmem, decide_eq_true fun hzero => hne ((class_eq_zero_iff count).mp hzero)⟩
  intro hzero
  rw [hzero, UInt32.toNat_zero] at hcount
  omega

/-- What the loop does to a run that neither is a surprise nor is without instrumentation. -/
theorem Calibration.round_eq (hsize : Word_sized o.word_size n) (hrun : run.Regular o n)
    (hhit : o.dumb_mode = true ∨ c.stage_cur ≠ 0 ∨ ∃ count ∈ run.hits, count ≠ 0) :
    c.round o run = .yield
      (let c₁ := { c with
        maps := { c.maps with trace_bits := run.trace, kill_signal := run.kill_signal.getD c.maps.kill_signal }
        fault := run.fault }
      if c.q.exec_cksum ≠ hash_trace run.trace then c₁.other_cksum o else c₁) := by
  have hgo : ¬ (run.stop_soon = true ∨ run.fault ≠ o.crash_mode) := by
    simp [hrun.stop_soon, hrun.fault]
  have hinst : ¬ ((!o.dumb_mode) = true ∧ c.stage_cur = 0 ∧ count_bytes run.trace = 0) := by
    rintro ⟨hdumb, hstage, hzero⟩
    rcases hhit with h | h | h
    · simp [h] at hdumb
    · exact h hstage
    · exact Execution.count_bytes_ne_zero hsize hrun.length h hzero
  rw [Calibration.round]
  simp only [Bitmaps.run_target_eq hsize hrun.length]
  rw [if_neg hgo, if_neg hinst]
  split <;> rfl

/-- A round with a regular run goes on, keeps the reference, and adds what the run shows and how
it varies. -/
theorem Calibration.Referenced.round (h : c.Referenced n cksum first_trace) (hsize : Word_sized o.word_size n) (hrun : run.Regular o n)
    (hhit : o.dumb_mode = true ∨ c.stage_cur ≠ 0 ∨ ∃ count ∈ run.hits, count ≠ 0) :
    ∃ c', c.round o run = .yield c' ∧ c'.Referenced n cksum first_trace ∧ c.Advances c' cksum first_trace run := by
  let c₁ : Calibration := { c with
    maps := { c.maps with trace_bits := run.trace, kill_signal := run.kill_signal.getD c.maps.kill_signal }
    fault := run.fault }
  have hsized : c₁.maps.Sized n :=
    ⟨h.sized.virgin_bits, run.length_trace.trans hrun.length, h.sized.first_trace, h.sized.var_bytes⟩
  have h₁ : c₁.Referenced n cksum first_trace := ⟨hsized, h.exec_cksum, h.nonzero, h.first_trace⟩
  refine ⟨_, Calibration.round_eq hsize hrun hhit, ?_⟩
  by_cases hcksum : hash_trace run.trace = cksum
  · have hsame : ¬ c.q.exec_cksum ≠ hash_trace run.trace := not_not.mpr (h.exec_cksum.trans hcksum.symm)
    have hvaried : run.varied cksum first_trace = ∅ := if_pos hcksum
    have hfound : run.found cksum = ∅ := if_pos hcksum
    rw [if_neg hsame]
    exact ⟨h₁, rfl, rfl, rfl, rfl, by rw [hvaried, if_pos (Finset.empty_subset _)], by rw [hvaried, Finset.union_empty],
      by rw [hfound, Finset.union_empty], by simp [hcksum],
      by rw [hfound, and_iff_left (Finset.empty_subset _)]⟩
  · have hother : c.q.exec_cksum ≠ hash_trace run.trace := fun heq => hcksum (heq.symm.trans h.exec_cksum)
    have hvaried : run.varied cksum first_trace = differing first_trace run.trace := if_neg hcksum
    have hfound : run.found cksum = shown run.trace := if_neg hcksum
    obtain ⟨href, hq, hfault, hcur, htrace, hmax, hmarked, hseen, hvar, hnew⟩ := h₁.other_cksum hsize
    rw [if_pos hother]
    exact ⟨href, hq, hfault, hcur, htrace, by rw [hvaried]; exact hmax, by rw [hvaried]; exact hmarked,
      by rw [hfound]; exact hseen, by rw [hvar, decide_eq_true hcksum, Bool.or_true], by rw [hfound]; exact hnew⟩

/-- What the runs of a calibration change together. It says of some rounds what `Advances` says
of one, with unions in the place of single sets. -/
structure Calibration.Follows (c c' : Calibration) (cksum : UInt32) (first_trace : List UInt8) (used : List Execution) : Prop where
  q : c'.q = c.q
  fault : c'.fault = (used.getLast?.map Execution.fault).getD c.fault
  stage_cur : c'.stage_cur = c.stage_cur + used.length
  trace_bits : c'.maps.trace_bits = (used.getLast?.map Execution.trace).getD c.maps.trace_bits
  stage_max : c'.stage_max = if aflnet.marked c'.maps.var_bytes = aflnet.marked c.maps.var_bytes then c.stage_max else CAL_CYCLES_LONG
  marked : marked c'.maps.var_bytes = Novelty.after (aflnet.marked c.maps.var_bytes) (used.map (Execution.varied cksum first_trace))
  seen : seen c'.maps.virgin_bits.virgin_map =
    Novelty.after (aflnet.seen c.maps.virgin_bits.virgin_map) (used.map (Execution.found cksum))
  var_detected : c'.var_detected = (c.var_detected || used.any fun run => hash_trace run.trace ≠ cksum)
  new_bits : c'.new_bits = 0 ↔
    c.new_bits = 0 ∧ aflnet.seen c'.maps.virgin_bits.virgin_map = aflnet.seen c.maps.virgin_bits.virgin_map

theorem Calibration.Follows.refl (c : Calibration) (cksum : UInt32) (first_trace : List UInt8) : c.Follows c cksum first_trace [] where
  q := rfl
  fault := rfl
  stage_cur := rfl
  trace_bits := rfl
  stage_max := by rw [if_pos rfl]
  marked := rfl
  seen := rfl
  var_detected := by simp
  new_bits := (and_iff_left rfl).symm

theorem Calibration.Advances.follows {c₁ c₂ : Calibration} {used : List Execution} (h : c.Advances c₁ cksum first_trace run)
    (hrest : { c₁ with stage_cur := c₁.stage_cur + 1 }.Follows c₂ cksum first_trace used) :
    c.Follows c₂ cksum first_trace (run :: used) where
  q := hrest.q.trans h.q
  fault := by
    rw [hrest.fault, h.fault, List.getLast?_cons]
    cases used.getLast? <;> rfl
  stage_cur := by
    have hcur := hrest.stage_cur
    simp only [h.stage_cur] at hcur
    rw [hcur, List.length_cons]
    omega
  trace_bits := by
    rw [hrest.trace_bits, h.trace_bits, List.getLast?_cons]
    cases used.getLast? <;> rfl
  stage_max := by
    have hmarked := h.marked
    have hmore : aflnet.marked c₁.maps.var_bytes ⊆ aflnet.marked c₂.maps.var_bytes := hrest.marked ▸ Novelty.subset_after _ _
    have hmax := hrest.stage_max
    simp only [h.stage_max] at hmax
    rw [hmax]
    by_cases hold : run.varied cksum first_trace ⊆ aflnet.marked c.maps.var_bytes
    · rw [hmarked, if_pos hold, Finset.union_eq_left.mpr hold]
    · have hne : aflnet.marked c₂.maps.var_bytes ≠ aflnet.marked c.maps.var_bytes := by
        intro heq
        rw [heq, hmarked] at hmore
        exact hold (Finset.union_subset_iff.mp hmore).2
      rw [if_neg hold, if_neg hne, ite_self]
  marked := by rw [hrest.marked, h.marked]; rfl
  seen := by rw [hrest.seen, h.seen]; rfl
  var_detected := by rw [hrest.var_detected, h.var_detected, List.any_cons, Bool.or_assoc]
  new_bits := by
    have hmore : aflnet.seen c₁.maps.virgin_bits.virgin_map ⊆ aflnet.seen c₂.maps.virgin_bits.virgin_map :=
      hrest.seen ▸ Novelty.subset_after _ _
    have hnew := hrest.new_bits
    simp only [h.new_bits] at hnew
    rw [h.seen] at hmore hnew
    rw [hnew, and_assoc, Novelty.union_unchanged_iff hmore]

/-- The fault of the calibration is still that of the mode after regular runs. -/
theorem Calibration.Follows.fault_of_regular {used : List Execution} (h : c.Follows c' cksum first_trace used)
    (hfault : c.fault = o.crash_mode) (hused : ∀ run ∈ used, run.Regular o n) : c'.fault = o.crash_mode := by
  rw [h.fault]
  cases hlast : used.getLast? with
  | none => exact hfault
  | some run => exact (hused run (List.mem_of_getLast? hlast)).fault

/-- The loop makes as many rounds as it was told to, or as many as a variable target needs. -/
theorem Calibration.Referenced.rounds (h : c.Referenced n cksum first_trace) (hsize : Word_sized o.word_size n)
    (hruns : ∀ run ∈ runs, run.Regular o n) (hhit : o.dumb_mode = true ∨ c.stage_cur ≠ 0)
    (hstage : c.stage_cur ≤ c.stage_max) (hmax : c.stage_max ≤ CAL_CYCLES_LONG) (henough : CAL_CYCLES_LONG ≤ c.stage_cur + runs.length) :
    ∃ c' used rest, runs = used ++ rest ∧ c.rounds o runs = some (c', false) ∧ c'.Referenced n cksum first_trace ∧
      c.Follows c' cksum first_trace used ∧ c'.stage_cur = c'.stage_max := by
  induction runs generalizing c with
  | nil =>
    rw [List.length_nil] at henough
    have hstop : ¬ c.stage_cur < c.stage_max := by omega
    exact ⟨c, [], [], rfl, by rw [Calibration.rounds, if_neg hstop], h, .refl .., by omega⟩
  | cons run runs ih =>
    rw [List.forall_mem_cons] at hruns
    rw [List.length_cons] at henough
    by_cases hmore : c.stage_cur < c.stage_max
    · obtain ⟨c₁, hround, h₁, hadvance⟩ := h.round hsize hruns.1 (hhit.imp_right Or.inl)
      have hcur := hadvance.stage_cur
      have hnext := hadvance.stage_max
      have hlarger : c.stage_max ≤ c₁.stage_max ∧ c₁.stage_max ≤ CAL_CYCLES_LONG := by
        rw [hnext]
        split
        · exact ⟨Nat.le_refl _, hmax⟩
        · exact ⟨hmax, Nat.le_refl _⟩
      obtain ⟨c₂, used, rest, hsplit, hrun, h₂, hfollows, hend⟩ := ih (c := { c₁ with stage_cur := c₁.stage_cur + 1 })
        ⟨h₁.sized, h₁.exec_cksum, h₁.nonzero, h₁.first_trace⟩ hruns.2 (Or.inr (Nat.succ_ne_zero _)) (by simp only; omega)
        hlarger.2 (by simp only; omega)
      refine ⟨c₂, run :: used, rest, by rw [hsplit, List.cons_append], ?_, h₂, hadvance.follows hfollows, hend⟩
      rw [Calibration.rounds, if_pos hmore]
      simp only [hround]
      exact hrun
    · refine ⟨c, [], run :: runs, rfl, by rw [Calibration.rounds, if_neg hmore], h, .refl .., by omega⟩

/-- The first run of an entry without a checksum gives it one. -/
theorem Calibration.round_of_fresh (hsized : c.maps.Sized n) (hsize : Word_sized o.word_size n) (hrun : run.Regular o n)
    (hhit : o.dumb_mode = true ∨ ∃ count ∈ run.hits, count ≠ 0) (hfresh : c.q.exec_cksum = 0) (hcksum : hash_trace run.trace ≠ 0) :
    ∃ c', c.round o run = .yield c' ∧ c'.Referenced n (hash_trace run.trace) run.trace ∧
      c'.q = { c.q with exec_cksum := hash_trace run.trace } ∧ c'.fault = run.fault ∧ c'.stage_cur = c.stage_cur ∧
      c'.stage_max = c.stage_max ∧ c'.maps.var_bytes = c.maps.var_bytes ∧ c'.maps.trace_bits = run.trace ∧
      seen c'.maps.virgin_bits.virgin_map = seen c.maps.virgin_bits.virgin_map ∪ shown run.trace ∧
      c'.var_detected = c.var_detected ∧
      (c'.new_bits = 0 ↔ c.new_bits = 0 ∧ shown run.trace ⊆ seen c.maps.virgin_bits.virgin_map) := by
  have htrace : run.trace.length = n := run.length_trace.trans hrun.length
  obtain ⟨hnew, -, hseen, hlength⟩ := has_new_bits_seen (c := c.maps.virgin_bits) (htrace ▸ hsize.words)
    (hsized.virgin_bits.trans htrace.symm)
  have hother : c.q.exec_cksum ≠ hash_trace run.trace := fun heq => hcksum (heq.symm.trans hfresh)
  refine ⟨_, Calibration.round_eq hsize hrun (hhit.imp_right Or.inr), ?_⟩
  simp only [if_pos hother, Calibration.other_cksum, if_neg (not_not.mpr hfresh)]
  refine ⟨⟨⟨hlength.trans hsized.virgin_bits, htrace, htrace, hsized.var_bytes⟩, rfl, hcksum, rfl⟩, trivial, trivial, trivial, trivial,
    trivial, trivial, hseen, trivial, ?_⟩
  rw [greater_eq_zero_iff, not_iff_not.mp hnew]

end rounds

section any_runs

variable {o : Run_options} {n : Nat} {run : Execution} {runs : List Execution} {c c' : Calibration} {before : Finset Nat}

/-- Noting the coverage changes one field of the entry and one counter. -/
theorem Calibration.note_coverage_eq (c : Calibration) : c.note_coverage = { c with
    q := { c.q with has_new_cov := c.q.has_new_cov || decide (c.new_bits = 2) }
    maps := { c.maps with queued_with_cov := c.note_coverage.maps.queued_with_cov } } := by
  unfold Calibration.note_coverage
  split
  · rename_i hnew
    simp [hnew.1, hnew.2]
  · rename_i hnew
    have hcov : (c.q.has_new_cov || decide (c.new_bits = 2)) = c.q.has_new_cov := by
      cases h : c.q.has_new_cov with
      | true => rfl
      | false => simpa [h] using hnew
    rw [hcov]

/-- Noting the variable behavior changes one field of the entry and two counters. -/
theorem Calibration.note_variable_eq (c : Calibration) : c.note_variable = { c with
    q := { c.q with var_behavior := c.q.var_behavior || c.var_detected }
    maps := { c.maps with
      var_byte_count := c.note_variable.maps.var_byte_count
      queued_variable := c.note_variable.maps.queued_variable } } := by
  obtain ⟨maps, ⟨exec_cksum, cal_failed, has_new_cov, var_behavior, bitmap_size, handicap⟩, stage_cur, stage_max, new_bits,
    var_detected, fault⟩ := c
  cases var_detected <;> cases var_behavior <;> rfl

/-- What holds whatever the runs do: maps keep their sizes, nothing that was seen is forgotten, and a fault is one of a run. -/
structure Calibration.Sound (n : Nat) (before : Finset Nat) (c : Calibration) : Prop where
  sized : c.maps.Sized n
  seen : before ⊆ aflnet.seen c.maps.virgin_bits.virgin_map
  stage_max : c.stage_max ≤ CAL_CYCLES_LONG
  fault : c.fault ≠ .FAULT_ERROR

/-- A trace with another checksum keeps what always holds. -/
theorem Calibration.Sound.other_cksum (h : c.Sound n before) (hsize : Word_sized o.word_size n) : (c.other_cksum o).Sound n before := by
  obtain ⟨⟨hvirgin, htrace, hfirst, hvar⟩, hbefore, hmax, hfault⟩ := h
  obtain ⟨-, -, hseen, hlength⟩ := has_new_bits_seen (c := c.maps.virgin_bits) (htrace ▸ hsize.words) (hvirgin.trans htrace.symm)
  have hafter : before ⊆ aflnet.seen (has_new_bits o.word_size c.maps.trace_bits c.maps.virgin_bits).2.virgin_map := by
    rw [hseen]
    exact hbefore.trans Finset.subset_union_left
  unfold Calibration.other_cksum
  simp only
  split
  · refine ⟨⟨hlength.trans hvirgin, htrace, hfirst, (length_mark_bytes ..).trans hvar⟩, hafter, ?_, hfault⟩
    simp only
    split
    · exact Nat.le_refl _
    · exact hmax
  · exact ⟨⟨hlength.trans hvirgin, htrace, htrace, hvar⟩, hafter, hmax, hfault⟩

/-- A run that can be started keeps what always holds, whether it ends the calibration or not.
-/
theorem Calibration.Sound.round (h : c.Sound n before) (hsize : Word_sized o.word_size n) (hlength : run.hits.length = n)
    (hfault : run.fault ≠ .FAULT_ERROR) :
    (∃ c', c.round o run = .done c' ∧ c'.Sound n before) ∨ ∃ c', c.round o run = .yield c' ∧ c'.Sound n before ∧ c'.stage_cur = c.stage_cur := by
  have htrace : (classify_counts o.word_size run.hits).length = n := by
    rw [Execution.classify_counts hsize hlength, Execution.length_trace, hlength]
  have h₁ : Calibration.Sound n before { c with maps := c.maps.run_target o run, fault := run.fault } :=
    ⟨⟨h.sized.virgin_bits, htrace, h.sized.first_trace, h.sized.var_bytes⟩, h.seen, h.stage_max, hfault⟩
  unfold Calibration.round
  simp only
  split
  · exact Or.inl ⟨_, rfl, h₁⟩
  · split
    · exact Or.inl ⟨_, rfl, h₁.sized, h₁.seen, h₁.stage_max, nofun⟩
    · split
      · refine Or.inr ⟨_, rfl, h₁.other_cksum hsize, ?_⟩
        unfold Calibration.other_cksum
        simp only
        split <;> rfl
      · exact Or.inr ⟨_, rfl, h₁, rfl⟩

/-- Forty runs are enough for the loop. -/
theorem Calibration.Sound.rounds (h : c.Sound n before) (hsize : Word_sized o.word_size n)
    (hruns : ∀ run ∈ runs, run.hits.length = n ∧ run.fault ≠ .FAULT_ERROR) (henough : CAL_CYCLES_LONG ≤ c.stage_cur + runs.length) :
    ∃ c' aborted, c.rounds o runs = some (c', aborted) ∧ c'.Sound n before := by
  induction runs generalizing c with
  | nil =>
    have hmax := h.stage_max
    rw [List.length_nil] at henough
    exact ⟨c, false, by rw [Calibration.rounds, if_neg (by omega)], h⟩
  | cons run runs ih =>
    rw [List.forall_mem_cons] at hruns
    rw [List.length_cons] at henough
    rw [Calibration.rounds]
    split
    · rcases h.round hsize hruns.1.1 hruns.1.2 with ⟨c₁, hround, h₁⟩ | ⟨c₁, hround, h₁, hcur⟩
      · exact ⟨c₁, true, by rw [hround], h₁⟩
      · rw [hround]
        exact ih (c := { c₁ with stage_cur := c₁.stage_cur + 1 }) ⟨h₁.sized, h₁.seen, h₁.stage_max, h₁.fault⟩ hruns.2
          (by simp only; omega)
    · exact ⟨c, false, rfl, h⟩

/-- A calibration ends whatever the target does. -/
theorem calibrate_case_sound (hsize : Word_sized o.word_size n) {maps : Bitmaps} (hmaps : maps.Sized n)
    (hruns : ∀ run ∈ runs, run.hits.length = n ∧ run.fault ≠ .FAULT_ERROR) (hlong : CAL_CYCLES_LONG ≤ runs.length) (handicap : UInt32)
    (q : calibrated_entry) : ∃ c, calibrate_case o runs handicap maps q = some c ∧
      c.Sound n (seen maps.virgin_bits.virgin_map) := by
  have hstart : (Calibration.start o maps q).Sound n (seen maps.virgin_bits.virgin_map) := by
    refine ⟨?_, ?_, ?_, nofun⟩
    · unfold Calibration.start
      simp only
      split
      · exact ⟨hmaps.virgin_bits, hmaps.trace_bits, hmaps.trace_bits, hmaps.var_bytes⟩
      · exact hmaps
    · unfold Calibration.start
      simp only
      split <;> exact Finset.Subset.refl _
    · change (if o.fast_cal then 3 else CAL_CYCLES) ≤ CAL_CYCLES_LONG
      cases o.fast_cal <;> decide
  obtain ⟨c, aborted, hrun, hsound⟩ := hstart.rounds hsize hruns (Nat.le_trans hlong (Nat.le_add_left ..))
  have hsettle : ∀ c : Calibration, c.Sound n (seen maps.virgin_bits.virgin_map) → c.settle.Sound n (seen maps.virgin_bits.virgin_map) := by
    intro c h
    rw [Calibration.settle, Calibration.note_variable_eq, Calibration.note_coverage_eq]
    exact ⟨⟨h.sized.virgin_bits, h.sized.trace_bits, h.sized.first_trace, h.sized.var_bytes⟩, h.seen, h.stage_max, h.fault⟩
  rw [calibrate_case, hrun]
  cases aborted with
  | true => exact ⟨_, rfl, hsettle c hsound⟩
  | false =>
    refine ⟨_, rfl, hsettle _ ⟨⟨hsound.sized.virgin_bits, hsound.sized.trace_bits, hsound.sized.first_trace, hsound.sized.var_bytes⟩,
      hsound.seen, hsound.stage_max, ?_⟩⟩
    unfold Calibration.complete
    simp only
    split
    · nofun
    · exact hsound.fault

end any_runs

section calibrate_case

variable {o : Run_options} {n : Nat} {first : Execution} {runs : List Execution} {c : Calibration} {maps : Bitmaps}
  {q : calibrated_entry}

/-- What follows the label changes the entry and a counter, but no map. -/
theorem Calibration.settle_spec (c : Calibration) :
    c.settle.fault = c.fault ∧ c.settle.stage_max = c.stage_max ∧ c.settle.maps.virgin_bits = c.maps.virgin_bits ∧
      c.settle.maps.var_bytes = c.maps.var_bytes ∧ c.settle.q = { c.q with
        has_new_cov := c.q.has_new_cov || decide (c.new_bits = 2)
        var_behavior := c.q.var_behavior || c.var_detected } := by
  rw [Calibration.settle, Calibration.note_variable_eq, Calibration.note_coverage_eq]
  exact ⟨rfl, rfl, rfl, rfl, rfl⟩

/-- A fresh entry that runs without an incident is calibrated in the usual number of cycles, or in the long one exactly if
a byte turns out to be variable. The bytes that are marked are those in which a run differs from the first one. -/
theorem calibration_is_exact (hsize : Word_sized o.word_size n) (hmaps : maps.Sized n) (hfresh : q.exec_cksum = 0)
    (hruns : ∀ run ∈ first :: runs, run.Regular o n) (hlong : CAL_CYCLES_LONG ≤ (first :: runs).length)
    (hhit : o.dumb_mode = true ∨ ∃ count ∈ first.hits, count ≠ 0) (hcksum : hash_trace first.trace ≠ 0) (handicap : UInt32) :
    ∃ c used rest, calibrate_case o (first :: runs) handicap maps q = some c ∧ first :: runs = used ++ rest ∧
      used.length = c.stage_max ∧
      c.stage_max = (if marked c.maps.var_bytes ≠ marked maps.var_bytes then CAL_CYCLES_LONG else if o.fast_cal then 3 else CAL_CYCLES) ∧
      marked c.maps.var_bytes =
        Novelty.after (marked maps.var_bytes) (used.map (Execution.varied (hash_trace first.trace) first.trace)) ∧
      seen c.maps.virgin_bits.virgin_map =
        Novelty.after (seen maps.virgin_bits.virgin_map ∪ shown first.trace) (used.map (Execution.found (hash_trace first.trace))) ∧
      c.q.exec_cksum = hash_trace first.trace ∧ c.q.cal_failed = 0 ∧ c.q.handicap = handicap ∧
      c.q.var_behavior = (q.var_behavior || used.any fun run => hash_trace run.trace ≠ hash_trace first.trace) ∧
      c.fault = (if o.dumb_mode = false ∧ o.crash_mode = .FAULT_NONE ∧
        seen c.maps.virgin_bits.virgin_map = seen maps.virgin_bits.virgin_map then .FAULT_NOBITS else o.crash_mode) := by
  obtain ⟨hfirst, hrest⟩ := List.forall_mem_cons.mp hruns
  let c₀ : Calibration := .start o maps q
  have hmaps₀ : c₀.maps = maps := if_neg (not_not.mpr hfresh)
  have hbase : c₀.stage_max ≤ CAL_CYCLES_LONG ∧ 0 < c₀.stage_max := by
    change (if o.fast_cal then 3 else CAL_CYCLES) ≤ CAL_CYCLES_LONG ∧ 0 < if o.fast_cal then 3 else CAL_CYCLES
    cases o.fast_cal <;> decide
  obtain ⟨c₁, hround, href, hq, hfault, hcur, hmax, hvar, htrace, hseen, hdetected, hnew⟩ :=
    Calibration.round_of_fresh (c := c₀) (hmaps₀ ▸ hmaps) hsize hfirst hhit hfresh hcksum
  obtain ⟨c₂, used, rest, hsplit, hrun, -, hfollows, hend⟩ :=
    Calibration.Referenced.rounds (c := { c₁ with stage_cur := c₁.stage_cur + 1 })
      ⟨href.sized, href.exec_cksum, href.nonzero, href.first_trace⟩ hsize hrest (Or.inr (Nat.succ_ne_zero _))
      (by simp only [hcur, hmax]; exact hbase.2) (by simp only [hmax]; exact hbase.1)
      (by rw [List.length_cons] at hlong; simp only; omega)
  have hcase : calibrate_case o (first :: runs) handicap maps q = some (c₂.complete o handicap true).settle := by
    have hmore : (Calibration.start o maps q).stage_cur < (Calibration.start o maps q).stage_max := hbase.2
    have hfirst_run : decide (q.exec_cksum = 0) = true := decide_eq_true hfresh
    rw [calibrate_case, Calibration.rounds, if_pos hmore, hround]
    simp only [hrun, hfirst_run, Option.bind_eq_bind, Option.bind_some, Bool.false_eq_true, if_false, Option.pure_def]
  obtain ⟨hsfault, hsmax, hsvirgin, hsvar, hsq⟩ := (c₂.complete o handicap true).settle_spec
  have hused : first :: runs = (first :: used) ++ rest := by rw [hsplit, List.cons_append]
  have hsame : Execution.varied (hash_trace first.trace) first.trace first = ∅ := if_pos rfl
  have hnone : Execution.found (hash_trace first.trace) first = ∅ := if_pos rfl
  have hmarked : marked c₂.maps.var_bytes =
      Novelty.after (marked maps.var_bytes) ((first :: used).map (Execution.varied (hash_trace first.trace) first.trace)) := by
    have h := hfollows.marked
    simp only [hvar, hmaps₀] at h
    rw [h, List.map_cons, hsame, Novelty.after_empty_cons]
  have hcovered : seen c₂.maps.virgin_bits.virgin_map = Novelty.after (seen maps.virgin_bits.virgin_map ∪ shown first.trace)
      ((first :: used).map (Execution.found (hash_trace first.trace))) := by
    have h := hfollows.seen
    simp only [hseen, hmaps₀] at h
    rw [h, List.map_cons, hnone, Novelty.after_empty_cons]
  have hcycles : c₂.stage_max = if marked c₂.maps.var_bytes ≠ marked maps.var_bytes then CAL_CYCLES_LONG else c₀.stage_max := by
    have h := hfollows.stage_max
    simp only [hvar, hmaps₀, hmax] at h
    rw [h, ite_not]
  have hlast : c₂.fault = o.crash_mode :=
    hfollows.fault_of_regular (hfault.trans hfirst.fault) fun run hrun => hrest run (hsplit ▸ List.mem_append_left _ hrun)
  have hnothing : c₂.new_bits = 0 ↔ seen c₂.maps.virgin_bits.virgin_map = seen maps.virgin_bits.virgin_map := by
    have h := hfollows.new_bits
    simp only [hnew, hmaps₀, hseen] at h
    have hsub : seen maps.virgin_bits.virgin_map ∪ shown first.trace ⊆ seen c₂.maps.virgin_bits.virgin_map := by
      rw [hcovered]
      exact Novelty.subset_after _ _
    have hnew₀ : c₀.new_bits = 0 := rfl
    rw [h, and_assoc, Novelty.union_unchanged_iff hsub, and_iff_right hnew₀]
  refine ⟨_, first :: used, rest, hcase, hused, ?_, ?_, ?_, ?_, ?_, ?_, ?_, ?_, ?_⟩
  · have h := hfollows.stage_cur
    simp only [hcur] at h
    rw [hsmax, List.length_cons]
    change used.length + 1 = c₂.stage_max
    rw [← hend, h]
    change used.length + 1 = 0 + 1 + used.length
    omega
  · rw [hsmax, hsvar]
    exact hcycles
  · rw [hsvar]
    exact hmarked
  · rw [hsvirgin]
    exact hcovered
  · rw [hsq]
    change c₂.q.exec_cksum = _
    rw [hfollows.q]
    exact href.exec_cksum
  · rw [hsq]
    rfl
  · rw [hsq]
    rfl
  · have h := hfollows.var_detected
    simp only [hdetected] at h
    rw [hsq]
    change (c₂.q.var_behavior || c₂.var_detected) = _
    rw [hfollows.q, h, List.any_cons]
    simp only [hq]
    simp [c₀, Calibration.start]
  · rw [hsfault, hsvirgin, Calibration.complete]
    simp only [hlast, hnothing]
    cases o.dumb_mode <;> simp

/-- A target that goes a different way after the first run. -/
def flaky_options : Run_options where
  crash_mode := .FAULT_NONE
  dumb_mode := false
  fast_cal := true
  exec_tmout := 1000
  hang_tmout := 1000
  word_size := 8

/-- A run that comes back normally with these hit counts. -/
def run_with (hits : List UInt8) : Execution where
  fault := .FAULT_NONE
  hits := hits
  kill_signal := none
  stop_soon := false

/-- The maps of a fuzzer that has not run anything yet: every bit of the virgin map is set, and
the other maps are 0. -/
def fresh_maps (n : Nat) : Bitmaps where
  virgin_bits := { virgin_map := List.replicate n 255, is_virgin_bits := true, bitmap_changed := false }
  trace_bits := List.replicate n 0
  kill_signal := 0
  first_trace := List.replicate n 0
  var_bytes := List.replicate n 0
  var_byte_count := 0
  queued_with_cov := 0
  queued_variable := 0
  total_cal_cycles := 0
  total_bitmap_size := 0
  total_bitmap_entries := 0

/-- An entry that was not calibrated before, and is of the initial corpus, since its checksum is
0. -/
def fresh_entry : calibrated_entry where
  exec_cksum := 0
  cal_failed := 0
  has_new_cov := false
  var_behavior := false
  bitmap_size := 0
  handicap := 0

theorem calibration_of_flaky_target :
    ∃ c used rest, calibrate_case flaky_options (run_with [1, 0, 0, 0, 0, 0, 0, 0] :: List.replicate 39 (run_with [1, 5, 0, 0, 0, 0, 0, 0]))
        0 (fresh_maps 8) fresh_entry = some c ∧
      run_with [1, 0, 0, 0, 0, 0, 0, 0] :: List.replicate 39 (run_with [1, 5, 0, 0, 0, 0, 0, 0]) = used ++ rest ∧
      used.length = c.stage_max ∧ c.q.exec_cksum = hash_trace (run_with [1, 0, 0, 0, 0, 0, 0, 0]).trace := by
  have hsize : Word_sized flaky_options.word_size 8 := ⟨by decide, by decide, by decide, by decide, by decide⟩
  have hmaps : (fresh_maps 8).Sized 8 := ⟨rfl, rfl, rfl, rfl⟩
  have hruns : ∀ run ∈ run_with [1, 0, 0, 0, 0, 0, 0, 0] :: List.replicate 39 (run_with [1, 5, 0, 0, 0, 0, 0, 0]),
      run.Regular flaky_options 8 := by
    intro run hrun
    rcases List.mem_cons.mp hrun with rfl | hmem
    · exact ⟨rfl, rfl, rfl⟩
    · rw [List.eq_of_mem_replicate hmem]
      exact ⟨rfl, rfl, rfl⟩
  obtain ⟨c, used, rest, hcase, hsplit, hlength, -, -, -, hcksum, -⟩ :=
    calibration_is_exact hsize hmaps (q := fresh_entry) rfl hruns (by simp [CAL_CYCLES_LONG]) (Or.inr ⟨1, by simp [run_with], by decide⟩)
      (by decide +kernel) 0
  exact ⟨c, used, rest, hcase, hsplit, hlength, hcksum⟩

end calibrate_case

end aflnet
