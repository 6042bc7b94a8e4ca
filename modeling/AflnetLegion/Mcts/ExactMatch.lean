import AflnetLegion.Mcts.Run
import AflnetLegion.Mcts.Scan

open Checked

namespace aflnet.mcts

/-- The regions behind which the scan goes on are too short for every later position. -/
def RegionMatch.Passed (q : queue_entry) (response_codes : List UInt32) (depth : Nat) (current : RegionMatch) : Prop :=
  ∀ (k : Nat) (region : region_t), k < current.matching_region_index + current.matched_exactly.toNat →
    (scanned_regions q response_codes)[k]? = some region → region.state_count ≤ depth

namespace RegionMatch.Passed

variable {q : queue_entry} {response_codes : List UInt32} {depth : Nat} {current : RegionMatch}

/-- Before the scan has looked at anything there is no region behind which it goes on. -/
theorem start : RegionMatch.Passed q response_codes 1 { matching_region_index := 0, matched_exactly := false } :=
  fun k _ hk => absurd hk (Nat.not_lt_zero k)

/-- Wherever the scan starts, it stops at the first region of all that is long enough
for the position, or else there is none. -/
theorem match_regions_spec (h : current.Passed q response_codes depth) :
    (∃ (i : Nat) (region : region_t), IsFirstLong (scanned_regions q response_codes) (depth + 1) i region ∧
      current.matching_region_index + current.matched_exactly.toNat ≤ i ∧
      match_regions q response_codes depth current =
        { matching_region_index := i
          matched_exactly := region.state_count = depth + 1 ∧
            memcmp_eq response_codes (region.state_sequence.getD []) region.state_count = true }) ∨
    ((∀ region ∈ scanned_regions q response_codes, region.state_count < depth + 1) ∧
      match_regions q response_codes depth current = current) := by
  rw [RegionMatch.Passed] at h
  rw [match_regions]
  generalize current.matching_region_index + current.matched_exactly.toNat = start at h ⊢
  have hshort : ∀ k < start, ∀ short, (scanned_regions q response_codes)[k]? = some short → short.state_count < depth + 1 :=
    fun k hk short hget => Nat.lt_succ_of_le (h k short hk hget)
  rcases scan_regions_spec response_codes depth ((scanned_regions q response_codes).drop start) start current with
    ⟨i, region, hfound, heq⟩ | ⟨hall, heq⟩
  · refine Or.inl ⟨start + i, region, ⟨?_, hfound.long, ?_⟩, Nat.le_add_right _ _, heq⟩
    · rw [← List.getElem?_drop, hfound.get]
    · intro k short hk hget
      by_cases hlt : k < start
      · exact hshort k hlt short hget
      · refine hfound.first (k - start) short (by omega) ?_
        rw [List.getElem?_drop, Nat.add_sub_cancel' (Nat.le_of_not_lt hlt), hget]
  · refine Or.inr ⟨?_, heq⟩
    intro region hmem
    obtain ⟨k, hget⟩ := List.mem_iff_getElem?.mp hmem
    by_cases hlt : k < start
    · exact hshort k hlt region hget
    · refine hall (k - start) region ?_
      rw [List.getElem?_drop, Nat.add_sub_cancel' (Nat.le_of_not_lt hlt), hget]

/-- One scan passes the regions that are too short, which all later positions may take for
granted. -/
protected theorem match_regions (h : current.Passed q response_codes depth) :
    (match_regions q response_codes depth current).Passed q response_codes (depth + 1) := by
  rcases h.match_regions_spec with ⟨i, region, hfound, _, heq⟩ | ⟨hall, _⟩
  · rw [heq]
    intro k short hk hget
    dsimp only at hk
    by_cases hlt : k < i
    · exact Nat.le_of_lt (hfound.first k short hlt hget)
    · -- only an exact match is passed over
      by_cases hexact : region.state_count = depth + 1 ∧
          memcmp_eq response_codes (region.state_sequence.getD []) region.state_count = true
      · rw [decide_eq_true hexact, Bool.toNat_true] at hk
        rw [show k = i by omega, hfound.get] at hget
        cases hget
        exact Nat.le_of_eq hexact.1
      · rw [decide_eq_false hexact, Bool.toNat_false] at hk
        exact absurd hk hlt
  · intro k region _ hget
    exact Nat.le_of_lt (hall region (List.mem_of_getElem? hget))

end RegionMatch.Passed

/-- The scan is the only part of an iteration that changes its variables. -/
theorem returns_second_round_step {q : queue_entry} {response_codes : List UInt32} {new_path : Bool} {path_index : Nat}
    {code : UInt32} {s s' : Walk} (h : Returns (second_round_step q response_codes new_path path_index code s) s') :
    s'.regions = match_regions q response_codes path_index s.regions := by
  obtain ⟨_, _, h⟩ := returns_bind h
  obtain ⟨_, _, h⟩ := returns_bind h
  obtain ⟨_, _, h⟩ := returns_bind h
  obtain ⟨_, _, h⟩ := returns_bind h
  obtain ⟨_, _, h⟩ := returns_bind h
  obtain ⟨_, _, h⟩ := returns_bind h
  obtain ⟨_, _, h⟩ := returns_bind h
  obtain ⟨_, _, h⟩ := returns_bind h
  obtain ⟨_, _, h⟩ := returns_bind h
  obtain ⟨_, _, h⟩ := returns_bind h
  rw [returns_pure h]

/-- After the second round the regions passed are too short for the last position too. -/
theorem returns_second_round {q : queue_entry} {response_codes : List UInt32} {new_path : Bool} {path_index : Nat}
    {codes : List UInt32} {s s' : Walk} (h : Returns (second_round q response_codes new_path path_index codes s) s')
    (hpassed : s.regions.Passed q response_codes path_index) :
    s'.regions.Passed q response_codes (path_index + codes.length) := by
  induction codes generalizing path_index s with
  | nil =>
    rw [returns_pure h]
    exact hpassed
  | cons code codes ih =>
    obtain ⟨middle, hstep, hrest⟩ := returns_bind h
    have hmiddle : middle.regions.Passed q response_codes (path_index + 1) := by
      rw [returns_second_round_step hstep]
      exact hpassed.match_regions
    rw [List.length_cons, Nat.add_comm codes.length 1, ← Nat.add_assoc]
    exact ih hrest hmiddle

/-- In the second round of an `Expansion` of `t` the iteration for position `path_index`
sets `matched_exactly` for the region at `region_index`. -/
def NewlyMatched (t : MctsTree) (q : queue_entry) (response_codes : List UInt32) (path_index region_index : Nat) : Prop :=
  ∃ (code : UInt32) (s s' : Walk), 1 ≤ path_index ∧ response_codes[path_index]? = some code ∧
    Returns (second_round q response_codes (t.missing ROOT response_codes.tail) 1
      (response_codes.tail.take (path_index - 1)) (Walk.start (t.seed ROOT q 0) ROOT)) s ∧
    Returns (second_round_step q response_codes (t.missing ROOT response_codes.tail) path_index code s) s' ∧
    s'.regions ≠ s.regions ∧ s'.regions = { matching_region_index := region_index, matched_exactly := true }

/-- The region at `region_index` is annotated with the codes up to `path_index`. -/
def EndsAt (q : queue_entry) (response_codes : List UInt32) (path_index region_index : Nat) : Prop :=
  ∃ region, q.live_regions[region_index]? = some region ∧ region.codes = response_codes.take (path_index + 1)

/-- A region with `path_index + 1` codes, found before any other that is long enough, has
the codes of the response if it has its first `path_index + 1` bytes. -/
def ComparesCodes (q : queue_entry) (response_codes : List UInt32) : Prop :=
  ∀ (path_index i : Nat) (region : region_t), 1 ≤ path_index → path_index < response_codes.length →
    IsFirstLong (scanned_regions q response_codes) (path_index + 1) i region → region.state_count = path_index + 1 →
    memcmp_eq response_codes region.codes (path_index + 1) = true →
    region.codes = response_codes.take (path_index + 1)

/-- The bytes compared lie in the codes the region is annotated with. -/
theorem memcmp_eq_codes (region : region_t) (response_codes : List UInt32) :
    memcmp_eq response_codes region.codes region.state_count =
      memcmp_eq response_codes (region.state_sequence.getD []) region.state_count := by
  rw [memcmp_eq, memcmp_eq, region_t.codes, take_bytes_of_take _ (by omega)]

theorem IsFirstLong.unique {regions : List region_t} {depth i k : Nat} {region found : region_t}
    (h : IsFirstLong regions depth i region) (h' : IsFirstLong regions depth k found) : k = i ∧ found = region := by
  have hle : ∀ {i k : Nat} {region found : region_t}, IsFirstLong regions depth i region →
      IsFirstLong regions depth k found → i ≤ k := by
    intro i k region found h h'
    by_contra hlt
    exact absurd (h.first k found (Nat.lt_of_not_le hlt) h'.get) (Nat.not_lt_of_le h'.long)
  obtain rfl := Nat.le_antisymm (hle h' h) (hle h h')
  exact ⟨rfl, Option.some.inj (h'.get.symm.trans h.get)⟩

/-- What the scan knows when the second round has come to a position. -/
theorem passed_of_second_round {t : MctsTree} {q : queue_entry} {response_codes : List UInt32} {new_path : Bool}
    {path_index : Nat} {s : Walk} (hpath : 1 ≤ path_index) (hlt : path_index < response_codes.length)
    (h : Returns (second_round q response_codes new_path 1 (response_codes.tail.take (path_index - 1))
      (Walk.start t ROOT)) s) : s.regions.Passed q response_codes path_index := by
  have hpassed := returns_second_round h RegionMatch.Passed.start
  rw [List.length_take, List.length_tail, Nat.min_eq_left (by omega), Nat.add_sub_cancel' hpath] at hpassed
  exact hpassed

/-- Exact matches are equal sequences unless the comparison overlooks a later code: its length
is the number of codes but counts bytes, so that only the first quarter of them is compared. The
tree may come from any run. -/
theorem Run.exact_matches_agree_iff {Ok : MctsTree → queue_entry → List UInt32 → Prop} {calls : List Call}
    {t : MctsTree} (hrun : Run Ok calls t) (q : queue_entry) (response_codes : List UInt32) :
    (∀ path_index region_index, NewlyMatched t q response_codes path_index region_index →
      EndsAt q response_codes path_index region_index) ↔ ComparesCodes q response_codes := by
  constructor
  · intro h path_index i region hpath hlt hfirst hcount hsame
    have hprefix : response_codes.tail.take (path_index - 1) <+: response_codes.drop 1 := by
      rw [List.drop_one]
      exact List.take_prefix _ _
    have hcode := List.getElem?_eq_getElem hlt
    have hregions : 0 < q.region_count := by
      rw [← q.length_live_regions]
      exact List.length_pos_of_mem (List.mem_of_getElem? (get_of_scanned hfirst.get).1)
    obtain ⟨hround, hready, _⟩ := second_round_holds (t.missing ROOT response_codes.tail) hprefix
      (hrun.linked.start_ready hregions)
    have hreach := hround.holds.returns_eq
    have hstep := (second_round_step_holds hready (t.missing ROOT response_codes.tail) hcode).1.holds.returns_eq
    have hregions' := returns_second_round_step hstep
    rcases (passed_of_second_round hpath hlt hreach).match_regions_spec with ⟨k, found, hfound, hstart, heq⟩ | ⟨hall, _⟩
    · obtain ⟨rfl, rfl⟩ := hfirst.unique hfound
      rw [← hcount, memcmp_eq_codes] at hsame
      rw [heq, decide_eq_true ⟨hcount, hsame⟩] at hregions'
      have hmatched : NewlyMatched t q response_codes path_index k := by
        refine ⟨_, _, _, hpath, hcode, hreach, hstep, ?_, hregions'⟩
        intro hnew
        rw [← hnew, hregions', Bool.toNat_true] at hstart
        exact absurd hstart (Nat.not_succ_le_self k)
      obtain ⟨region, hget, hcodes⟩ := h path_index k hmatched
      rw [(get_of_scanned hfirst.get).1] at hget
      cases hget
      exact hcodes
    · have hshort := hall region (List.mem_of_getElem? hfirst.get)
      omega
  · rintro h path_index region_index ⟨code, s, s', hpath, hcode, hround, hstep, hne, hset⟩
    have hlt := (List.getElem?_eq_some_iff.mp hcode).1
    rw [returns_second_round_step hstep] at hne hset
    rcases (passed_of_second_round hpath hlt hround).match_regions_spec with ⟨k, region, hfirst, _, heq⟩ | ⟨_, hkeep⟩
    · rw [heq, RegionMatch.mk.injEq, decide_eq_true_eq] at hset
      obtain ⟨rfl, hcount, hsame⟩ := hset
      refine ⟨region, (get_of_scanned hfirst.get).1, h path_index k region hpath hlt hfirst hcount ?_⟩
      rw [← hcount, memcmp_eq_codes]
      exact hsame
    · exact absurd hkeep hne

/-- Two requests; the annotation of the first one is `codes`. -/
def diverging_entry (codes : List UInt32) : queue_entry :=
  .of_regions "id:000007" [.annotated 0 9 codes, .annotated 10 19 [0, 5, 6]]

theorem compares_codes_of_prefix : ComparesCodes (diverging_entry [0, 5]) [0, 5, 6] := by
  intro path_index i region hpath hlt hfirst hcount _
  have hget := (get_of_scanned hfirst.get).1
  match i with
  | 0 =>
    cases hget
    cases hcount
    rfl
  | 1 =>
    cases hget
    cases hcount
    rfl
  | i + 2 => cases hget

theorem exact_match_of_prefix : EndsAt (diverging_entry [0, 5]) [0, 5, 6] 1 0 := by
  have hmatched : NewlyMatched .initial (diverging_entry [0, 5]) [0, 5, 6] 1 0 := by
    refine ⟨5, _, _, Nat.le_refl 1, rfl, returns_of_eq_pure rfl, ⟨true, [], [], rfl⟩, ?_, rfl⟩
    intro hsame
    cases hsame
  exact (Run.exact_matches_agree_iff (Run.initial : Run (fun _ _ _ => True) [] .initial) _ _).mpr
    compares_codes_of_prefix 1 0 hmatched

/-- The code 7 instead of 5 is behind the two bytes compared. -/
theorem exact_match_with_other_code : ∃ path_index region_index,
    NewlyMatched .initial (diverging_entry [0, 7]) [0, 5, 6] path_index region_index ∧
    ¬ EndsAt (diverging_entry [0, 7]) [0, 5, 6] path_index region_index := by
  refine ⟨1, 0, ⟨5, _, _, Nat.le_refl 1, rfl, returns_of_eq_pure rfl, ⟨true, [], _, rfl⟩, ?_, rfl⟩, ?_⟩
  · intro hsame
    cases hsame
  · rintro ⟨region, hget, hcodes⟩
    cases hget
    cases hcodes

end aflnet.mcts
