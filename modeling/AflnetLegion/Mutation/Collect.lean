import AflnetLegion.Dictionary.Ordered
import AflnetLegion.Mutation.Stages
import Mathlib.Data.List.SplitBy

namespace aflnet

/-- A dictionary to which `n` more tokens can be given before a use count reaches 2^31, from
where the comparison of counts would wrap. -/
structure Dictionary.Room (n : Nat) (d : Dictionary) : Prop where
  sound : d.Sound
  count : n < 2 ^ 31
  hits : ∀ e ∈ d.a_extras, e.hit_cnt.toNat + n < 2 ^ 31

section room

variable {a_extras : List extra_data} {mem : List UInt8} {d : Dictionary} {n : Nat}

/-- The use counts after a token was recorded: 0 for a new one, and at most one more for the
others. -/
theorem hits_record_token (random : Nat) {e : extra_data} (he : e ∈ record_token a_extras mem random) :
    e.hit_cnt = 0 ∨ ∃ f ∈ a_extras, e.hit_cnt = f.hit_cnt ∨ e.hit_cnt = f.hit_cnt + 1 := by
  unfold record_token at he
  dsimp only at he
  split at he
  · obtain ⟨k, hk⟩ := List.mem_iff_getElem?.mp he
    rw [List.getElem?_modify] at hk
    obtain ⟨f, hf, heq⟩ := Option.map_eq_some_iff.mp hk
    refine Or.inr ⟨f, List.mem_of_getElem? hf, ?_⟩
    split at heq
    · exact Or.inr (heq ▸ rfl)
    · exact Or.inl (heq ▸ rfl)
  · split at he
    · rcases List.mem_append.mp he with hold | hnew
      · exact Or.inr ⟨e, hold, Or.inl rfl⟩
      · exact Or.inl (List.mem_singleton.mp hnew ▸ rfl)
    · rcases List.mem_or_eq_of_mem_set he with hold | rfl
      · exact Or.inr ⟨e, hold, Or.inl rfl⟩
      · exact Or.inl rfl

theorem Dictionary.Room.mono {m : Nat} (h : d.Room n) (hle : m ≤ n) : d.Room m :=
  ⟨h.sound, Nat.lt_of_le_of_lt hle h.count, fun e he => Nat.lt_of_le_of_lt (Nat.add_le_add_left hle _) (h.hits e he)⟩

/-- The tokens after a token was recorded are those before and the new one. -/
theorem data_record_token (random : Nat) {e : extra_data} (he : e ∈ record_token a_extras mem random) :
    e.data = mem ∨ ∃ f ∈ a_extras, e.data = f.data := by
  unfold record_token at he
  dsimp only at he
  split at he
  · obtain ⟨k, hk⟩ := List.mem_iff_getElem?.mp he
    rw [List.getElem?_modify] at hk
    obtain ⟨f, hf, heq⟩ := Option.map_eq_some_iff.mp hk
    refine Or.inr ⟨f, List.mem_of_getElem? hf, ?_⟩
    rw [← heq]
    split <;> rfl
  · split at he
    · rcases List.mem_append.mp he with hold | hnew
      · exact Or.inr ⟨e, hold, rfl⟩
      · exact Or.inl (List.mem_singleton.mp hnew ▸ rfl)
    · rcases List.mem_or_eq_of_mem_set he with hold | rfl
      · exact Or.inr ⟨e, hold, rfl⟩
      · exact Or.inl rfl

/-- The tokens found are those before, or are sorted after the new one was recorded. -/
theorem Dictionary.Room.cases (h : d.Room (n + 1)) (hmin : MIN_AUTO_EXTRA ≤ mem.length) (hmax : mem.length ≤ MAX_AUTO_EXTRA)
    (lib : Qsort extra_data) (random : Nat) : (∀ e ∈ record_token d.a_extras mem random, e.hit_cnt.toNat + n < 2 ^ 31) ∧
      (maybe_add_auto lib random mem d = d ∨
        (maybe_add_auto lib random mem d).a_extras.Perm (record_token d.a_extras mem random)) := by
  have hcount := h.count
  have hhits : ∀ e ∈ record_token d.a_extras mem random, e.hit_cnt.toNat + n < 2 ^ 31 := by
    intro e he
    rcases hits_record_token random he with hzero | ⟨f, hf, heq | heq⟩
    · rw [hzero, UInt32.toNat_zero]
      omega
    · have hroom := h.hits f hf
      rw [heq]
      omega
    · have hroom := h.hits f hf
      rw [heq, UInt32.toNat_add, UInt32.toNat_one]
      omega
  refine ⟨hhits, ?_⟩
  unfold maybe_add_auto
  split
  · exact Or.inl rfl
  · rename_i hskip
    have hne : mem ≠ [] := List.ne_nil_of_length_pos (Nat.lt_of_lt_of_le (by decide) hmin)
    have hrun : ¬ IsRun mem := fun hrun => hskip (by simp [skips_token, (is_run_iff hne).mpr hrun])
    have hsizes : ∀ e ∈ record_token d.a_extras mem random, e.len ≤ MAX_AUTO_EXTRA := fun e he =>
      (tokens_record_token h.sound.tokens hmax hrun random).sizes e.data (List.mem_map_of_mem he)
    obtain ⟨first, rest, heq, hperm, -⟩ := sort_a_extras_spec hsizes
      (fun e he => Nat.lt_of_le_of_lt (Nat.le_add_right _ n) (hhits e he)) lib
    exact Or.inr (heq ▸ hperm)

/-- A token that is given to `maybe_add_auto` takes one of the places. -/
theorem Dictionary.Room.maybe_add_auto (h : d.Room (n + 1)) (hmin : MIN_AUTO_EXTRA ≤ mem.length)
    (hmax : mem.length ≤ MAX_AUTO_EXTRA) (lib : Qsort extra_data) (random : Nat) :
    (aflnet.maybe_add_auto lib random mem d).Room n := by
  obtain ⟨hhits, hsame | hperm⟩ := h.cases hmin hmax lib random
  · rw [hsame]
    exact h.mono (Nat.le_succ n)
  · have hbound : ∀ e ∈ record_token d.a_extras mem random, e.hit_cnt.toNat < 2 ^ 31 := fun e he =>
      Nat.lt_of_le_of_lt (Nat.le_add_right _ n) (hhits e he)
    exact ⟨h.sound.step random hmin hmax hbound lib, Nat.lt_of_succ_lt h.count, fun e he => hhits e (hperm.subset he)⟩

/-- The tokens found after a call were found before or are the one at hand. -/
theorem Dictionary.Room.data (h : d.Room (n + 1)) (hmin : MIN_AUTO_EXTRA ≤ mem.length) (hmax : mem.length ≤ MAX_AUTO_EXTRA)
    {lib : Qsort extra_data} {random : Nat} {e : extra_data} (he : e ∈ (aflnet.maybe_add_auto lib random mem d).a_extras) :
    e.data = mem ∨ ∃ f ∈ d.a_extras, e.data = f.data := by
  obtain ⟨-, hsame | hperm⟩ := h.cases hmin hmax lib random
  · rw [hsame] at he
    exact Or.inr ⟨e, he, rfl⟩
  · exact data_record_token random (hperm.subset he)

end room

namespace Collecting

/-- A byte, and the checksum of the run in which its last bit was flipped. -/
abbrev Probe := UInt8 × UInt32

/-- Whether two bytes lead to the same checksum. -/
def same_path (x y : Probe) : Bool := x.2 = y.2

/-- The token in a run of bytes with one checksum. A run with the checksum of the entry has
none, and neither has one that is too short or too long. -/
def run_token (exec_cksum : UInt32) (run : List Probe) : Option (List UInt8) :=
  if (run.all fun x => x.2 ≠ exec_cksum) ∧ MIN_AUTO_EXTRA ≤ run.length ∧ run.length ≤ MAX_AUTO_EXTRA then some (run.map Prod.fst)
  else none

/-- The tokens in all longest runs of bytes with one checksum. -/
def run_tokens (exec_cksum : UInt32) (probes : List Probe) : List (List UInt8) :=
  (probes.splitBy same_path).filterMap (run_token exec_cksum)

/-- What was collected of a run of bytes, of which the array holds the first part. The count
goes on when the array is full. -/
structure Holds (s : Collecting) (kept : List UInt8) : Prop where
  count : s.a_len = kept.length
  room : s.a_collect.length = MAX_AUTO_EXTRA
  bytes : s.a_collect.take kept.length = kept.take MAX_AUTO_EXTRA

/-- The bytes of the last run are collected unless its checksum is the one of the entry. -/
def last_bytes (exec_cksum cksum : UInt32) (run : List Probe) : List UInt8 := if cksum = exec_cksum then [] else run.map Prod.fst

/-- The search after some bytes: the runs that are over have been offered, and the bytes of the
one that goes on are being collected. -/
structure After (lib : Qsort extra_data) (exec_cksum : UInt32) (before : List (List UInt8)) (probes : List Probe)
    (closed : List (List Probe)) (run : List Probe) (s : Collecting) : Prop where
  runs : probes.splitBy same_path = closed ++ if run = [] then [] else [run]
  first : run = [] → probes = [] ∧ s.prev_cksum = exec_cksum
  same : ∀ x ∈ run, x.2 = s.prev_cksum
  offered : s.offered = before ++ closed.filterMap (run_token exec_cksum)
  holds : s.Holds (last_bytes exec_cksum s.prev_cksum run)

variable {lib : Qsort extra_data} {exec_cksum cksum : UInt32} {random : Nat} {s : Collecting} {kept : List UInt8} {byte : UInt8}
  {probes run : List Probe} {closed : List (List Probe)} {before : List (List UInt8)}

section splitBy

theorem splitBy_same (hruns : probes.splitBy same_path = closed ++ [run]) {x : Probe}
    (hsame : ∀ y ∈ run, y.2 = x.2) : (probes ++ [x]).splitBy same_path = closed ++ [run ++ [x]] := by
  obtain ⟨hflatten, hnil, hchain, hadjacent⟩ := List.splitBy_eq_iff.mp hruns
  rw [List.splitBy_eq_iff]
  refine ⟨?_, ?_, ?_, ?_⟩
  · rw [hflatten]
    simp
  · intro hmem
    rcases List.mem_append.mp hmem with hmem | hmem
    · exact hnil (List.mem_append_left _ hmem)
    · simp at hmem
  · intro m hm
    rcases List.mem_append.mp hm with hm | hm
    · exact hchain m (List.mem_append_left _ hm)
    · obtain rfl := List.mem_singleton.mp hm
      refine List.isChain_append.mpr ⟨hchain run (by simp), List.isChain_singleton x, fun y hy z hz => ?_⟩
      obtain rfl : x = z := by simpa using hz
      exact decide_eq_true (hsame y (List.mem_of_mem_getLast? hy))
  · rw [List.isChain_append] at hadjacent ⊢
    refine ⟨hadjacent.1, List.isChain_singleton _, fun m hm n hn => ?_⟩
    obtain rfl : run ++ [x] = n := by simpa using hn
    obtain ⟨hlast, hhead, hne'⟩ := hadjacent.2.2 m hm run (by simp)
    exact ⟨hlast, by simp, by rwa [List.head_append_of_ne_nil hhead]⟩

theorem splitBy_new (hruns : probes.splitBy same_path = closed ++ [run]) (hne : run ≠ []) {x : Probe}
    (hnew : ∀ y ∈ run, y.2 ≠ x.2) : (probes ++ [x]).splitBy same_path = closed ++ [run] ++ [[x]] := by
  obtain ⟨hflatten, -, -, -⟩ := List.splitBy_eq_iff.mp hruns
  rw [List.splitBy_append_cons, hruns]
  · rfl
  · intro y hy
    rw [hflatten, List.flatten_append, List.flatten_singleton, List.getLast?_append_of_ne_nil _ hne] at hy
    exact decide_eq_false (hnew y (List.mem_of_mem_getLast? hy))

end splitBy

section steps

theorem Holds.empty (h : s.a_collect.length = MAX_AUTO_EXTRA) : Holds { s with a_len := 0, prev_cksum := cksum } [] := ⟨rfl, h, rfl⟩

/-- A byte is collected, but is not stored once the array is full. -/
theorem Holds.collect (h : s.Holds kept) (byte : UInt8) : (s.collect byte).Holds (kept ++ [byte]) := by
  obtain ⟨hcount, hroom, hbytes⟩ := h
  refine ⟨by simp [Collecting.collect, hcount], ?_, ?_⟩
  · unfold Collecting.collect
    split <;> simp [hroom]
  · have hlength : (kept ++ [byte]).length = kept.length + 1 := by simp
    rw [hlength]
    by_cases hlt : kept.length < MAX_AUTO_EXTRA
    · have hset : (s.collect byte).a_collect = s.a_collect.set kept.length byte := by simp [Collecting.collect, hcount, hlt]
      rw [List.take_of_length_le (Nat.le_of_lt hlt)] at hbytes
      rw [hset, List.take_succ_eq_append_getElem (by rw [List.length_set]; omega), List.take_set_of_le (Nat.le_refl _), hbytes,
        List.getElem_set_self, List.take_of_length_le (by omega)]
    · have hsame : (s.collect byte).a_collect = s.a_collect := by simp [Collecting.collect, hcount, hlt]
      rw [List.take_of_length_le (by omega)] at hbytes
      rw [hsame, List.take_of_length_le (by omega), hbytes, List.take_append_of_le_length (by omega)]

/-- What is offered is the whole of what was collected, as it is offered only if it fits in the
array. -/
theorem Holds.offered_offer (h : s.Holds kept) (lib : Qsort extra_data) (random : Nat) : (s.offer lib random).offered =
    s.offered ++ if MIN_AUTO_EXTRA ≤ kept.length ∧ kept.length ≤ MAX_AUTO_EXTRA then [kept] else [] := by
  unfold offer
  rw [h.count]
  split
  · rename_i hsize
    simp only
    rw [h.bytes, List.take_of_length_le hsize.2]
  · exact (List.append_nil _).symm

theorem room_offer (s : Collecting) (lib : Qsort extra_data) (random : Nat) : (s.offer lib random).a_collect = s.a_collect := by
  unfold offer
  split <;> rfl

/-- The token of a run is what was collected of it. -/
theorem run_token_eq (hne : run ≠ []) (hsame : ∀ x ∈ run, x.2 = cksum) : (run_token exec_cksum run).toList =
    let kept := last_bytes exec_cksum cksum run
    if MIN_AUTO_EXTRA ≤ kept.length ∧ kept.length ≤ MAX_AUTO_EXTRA then [kept] else [] := by
  obtain ⟨x, rest, rfl⟩ := List.exists_cons_of_ne_nil hne
  unfold run_token last_bytes
  by_cases hcksum : cksum = exec_cksum
  · have hnot : ¬ ((x :: rest).all fun y => y.2 ≠ exec_cksum) = true := fun h =>
      of_decide_eq_true (List.all_eq_true.mp h x (List.mem_cons_self ..)) ((hsame x (List.mem_cons_self ..)).trans hcksum)
    rw [if_neg fun h => hnot h.1, if_pos hcksum]
    rfl
  · have hall : ((x :: rest).all fun y => y.2 ≠ exec_cksum) = true :=
      List.all_eq_true.mpr fun y hy => decide_eq_true fun heq => hcksum ((hsame y hy).symm.trans heq)
    simp only [if_neg hcksum, List.length_map, and_iff_right hall]
    split <;> rfl

theorem run_token_singleton (exec_cksum : UInt32) (x : Probe) : run_token exec_cksum [x] = none :=
  if_neg fun h => absurd (show 3 ≤ 1 from h.2.1) (by decide)

theorem filterMap_run (exec_cksum : UInt32) (run : List Probe) :
    [run].filterMap (run_token exec_cksum) = (run_token exec_cksum run).toList := by
  cases h : run_token exec_cksum run <;> simp [h]

end steps

section after

variable {x : Probe}

/-- The run that ends is offered. -/
theorem After.offered_offer (h : s.After lib exec_cksum before probes closed run) (random : Nat) :
    (s.offer lib random).offered = before ++ (closed ++ if run = [] then [] else [run]).filterMap (run_token exec_cksum) := by
  rw [h.holds.offered_offer, h.offered, List.filterMap_append, List.append_assoc]
  congr 2
  by_cases hempty : run = []
  · rw [hempty]
    unfold last_bytes
    split <;> rfl
  · rw [if_neg hempty, filterMap_run, run_token_eq hempty h.same]

theorem After.same_run (h : s.After lib exec_cksum before probes closed run) (hcksum : x.2 = s.prev_cksum) :
    (probes ++ [x]).splitBy same_path = closed ++ [run ++ [x]] := by
  by_cases hempty : run = []
  · obtain ⟨rfl, hprev⟩ := h.first hempty
    have hclosed : closed = [] := by simpa [hempty] using h.runs.symm
    rw [hempty, hclosed]
    rfl
  · exact splitBy_same (h.runs.trans (by rw [if_neg hempty])) fun y hy => (h.same y hy).trans hcksum.symm

/-- Any other byte begins a run, and the one before it is over. -/
theorem After.new_run (h : s.After lib exec_cksum before probes closed run) (hcksum : x.2 ≠ s.prev_cksum) :
    (probes ++ [x]).splitBy same_path = (closed ++ if run = [] then [] else [run]) ++ [[x]] := by
  by_cases hempty : run = []
  · obtain ⟨rfl, hprev⟩ := h.first hempty
    have hclosed : closed = [] := by simpa [hempty] using h.runs.symm
    rw [if_pos hempty, hclosed]
    rfl
  · rw [if_neg hempty]
    exact splitBy_new (h.runs.trans (by rw [if_neg hempty])) hempty fun y hy heq => hcksum (heq.symm.trans (h.same y hy))

/-- A byte that is not the last one. -/
theorem After.step (h : s.After lib exec_cksum before probes closed run) (random : Nat) (x : Probe) :
    ∃ closed run, (s.after_byte lib exec_cksum random x.2 x.1 false).After lib exec_cksum before (probes ++ [x]) closed run := by
  by_cases hcksum : x.2 = s.prev_cksum
  · have hstep : s.after_byte lib exec_cksum random x.2 x.1 false = if x.2 ≠ exec_cksum then s.collect x.1 else s := by
      simp [after_byte, hcksum]
    have hprev : (s.after_byte lib exec_cksum random x.2 x.1 false).prev_cksum = s.prev_cksum := by
      rw [hstep]
      split <;> rfl
    have hoffered : (s.after_byte lib exec_cksum random x.2 x.1 false).offered = s.offered := by
      rw [hstep]
      split <;> rfl
    refine ⟨closed, run ++ [x], ?_, by simp, ?_, hoffered.trans h.offered, ?_⟩
    · simpa using h.same_run hcksum
    · rw [hprev]
      intro y hy
      rcases List.mem_append.mp hy with hy | hy
      · exact h.same y hy
      · rwa [List.mem_singleton.mp hy]
    · have hholds := h.holds
      rw [hprev, hstep]
      unfold last_bytes at hholds ⊢
      split
      · rename_i hdiffers
        rw [if_neg (hcksum ▸ hdiffers)] at hholds ⊢
        rw [List.map_append]
        exact hholds.collect x.1
      · rename_i hequal
        rw [if_pos (hcksum.symm.trans (not_not.mp hequal))] at hholds ⊢
        exact hholds
  · have hstep : s.after_byte lib exec_cksum random x.2 x.1 false =
        let s := { s.offer lib random with a_len := 0, prev_cksum := x.2 }
        if x.2 ≠ exec_cksum then s.collect x.1 else s := by
      simp [after_byte, hcksum]
    have hprev : (s.after_byte lib exec_cksum random x.2 x.1 false).prev_cksum = x.2 := by
      rw [hstep]
      dsimp only
      split <;> rfl
    have hoffered : (s.after_byte lib exec_cksum random x.2 x.1 false).offered = (s.offer lib random).offered := by
      rw [hstep]
      dsimp only
      split <;> rfl
    refine ⟨_, [x], ?_, by simp, ?_, hoffered.trans (h.offered_offer random), ?_⟩
    · simpa using h.new_run hcksum
    · simp [hprev]
    · have hempty : Holds { s.offer lib random with a_len := 0, prev_cksum := x.2 } [] :=
        Holds.empty ((congrArg List.length (room_offer s lib random)).trans h.holds.room)
      rw [hprev, hstep]
      unfold last_bytes
      dsimp only
      by_cases hequal : x.2 = exec_cksum
      · rw [if_pos hequal, if_neg (not_not.mpr hequal)]
        exact hempty
      · rw [if_neg hequal, if_pos hequal]
        exact hempty.collect x.1

/-- After the last byte all tokens were offered. -/
theorem After.finish (h : s.After lib exec_cksum before probes closed run) (random : Nat) (x : Probe) :
    (s.after_byte lib exec_cksum random x.2 x.1 true).offered = before ++ run_tokens exec_cksum (probes ++ [x]) := by
  have hcollect : ∀ t : Collecting, (if x.2 ≠ exec_cksum then t.collect x.1 else t).offered = t.offered := by
    intro t
    split <;> rfl
  unfold after_byte
  dsimp only
  rw [hcollect, run_tokens]
  by_cases hcksum : x.2 = s.prev_cksum
  · have hholds := h.holds.collect x.1
    have hsame : ∀ y ∈ run ++ [x], y.2 = s.prev_cksum := by
      intro y hy
      rcases List.mem_append.mp hy with hy | hy
      · exact h.same y hy
      · rwa [List.mem_singleton.mp hy]
    rw [if_pos ⟨rfl, hcksum⟩, hholds.offered_offer, h.same_run hcksum, List.filterMap_append, filterMap_run,
      run_token_eq (List.append_ne_nil_of_right_ne_nil run (List.cons_ne_nil x [])) hsame]
    change s.offered ++ _ = _
    rw [h.offered, List.append_assoc]
    congr 2
    unfold last_bytes
    split
    · rfl
    · rw [List.map_append]
      rfl
  · rw [if_neg fun hboth => hcksum hboth.2, if_pos hcksum, h.new_run hcksum]
    change (s.offer lib random).offered = _
    have hlast : ∀ l : List (List Probe), (l ++ [[x]]).filterMap (run_token exec_cksum) = l.filterMap (run_token exec_cksum) := by
      intro l
      rw [List.filterMap_append, filterMap_run, run_token_singleton, Option.toList_none, List.append_nil]
    rw [h.offered_offer, hlast]

end after

section dictionary

variable {n : Nat} {last : Bool}

end dictionary

end Collecting

end aflnet
