import AflnetLegion.Mcts.Expansion

namespace aflnet.mcts

/-- Every region in use is annotated with a non-empty prefix of the response. -/
def Prefixed (q : queue_entry) (response_codes : List UInt32) : Prop :=
  ∀ region ∈ q.live_regions, region.codes ≠ [] ∧ region.codes <+: response_codes

instance (q : queue_entry) (response_codes : List UInt32) : Decidable (Prefixed q response_codes) :=
  inferInstanceAs (Decidable (∀ region ∈ q.live_regions, region.codes ≠ [] ∧ region.codes <+: response_codes))

/-- The annotation lengths of the regions the scan may look at. -/
def scanned_lengths (q : queue_entry) (response_codes : List UInt32) : List Nat :=
  (scanned_regions q response_codes).map region_t.state_count

/-- Whether the prefix of `depth` codes counts as exactly matched: the first region
with at least that many codes has no more, or no region has that many and the match
of an earlier, longer than trivial prefix is still standing. -/
def exact_at (lengths : List Nat) (depth : Nat) : Bool :=
  match lengths.find? fun len => depth ≤ len with
  | some len => len = depth
  | none => lengths.any fun len => 2 ≤ len

/-- A region annotated with a prefix of the response agrees with it. -/
theorem memcmp_eq_of_prefix {region : region_t} {response_codes : List UInt32} (h : region.codes <+: response_codes) :
    memcmp_eq response_codes (region.state_sequence.getD []) region.state_count = true := by
  have htake := List.prefix_iff_eq_take.mp h
  rw [region.length_codes] at htake
  have hsame : response_codes.take region.state_count = (region.state_sequence.getD []).take region.state_count := by
    rw [← htake, region_t.codes]
  exact memcmp_eq_of_take_eq hsame (by omega)

/-- `region` is the first of the regions with at least `depth` codes, and `i` is its index. The
regions before it are all too short. -/
structure IsFirstLong (regions : List region_t) (depth i : Nat) (region : region_t) : Prop where
  get : regions[i]? = some region
  long : depth ≤ region.state_count
  first : ∀ (k : Nat) (short : region_t), k < i → regions[k]? = some short → short.state_count < depth

theorem find?_iff_isFirstLong {regions : List region_t} {depth : Nat} {region : region_t} :
    regions.find? (fun region => depth ≤ region.state_count) = some region ↔ ∃ i, IsFirstLong regions depth i region := by
  rw [List.find?_eq_some_iff_getElem]
  constructor
  · rintro ⟨hlong, i, hlt, hget, hfirst⟩
    refine ⟨i, List.getElem?_eq_some_iff.mpr ⟨hlt, hget⟩, by simpa using hlong, fun k short hk hshort => ?_⟩
    obtain ⟨_, rfl⟩ := List.getElem?_eq_some_iff.mp hshort
    simpa using hfirst k hk
  · rintro ⟨i, hfound⟩
    obtain ⟨hlt, hget⟩ := List.getElem?_eq_some_iff.mp hfound.get
    refine ⟨by simpa using hfound.long, i, hlt, hget, fun k hk => ?_⟩
    simpa using hfound.first k _ hk (List.getElem?_eq_getElem (Nat.lt_trans hk hlt))

/-- The scan stops at the first region that is long enough and compares its codes,
or leaves its variables as they are. -/
theorem scan_regions_spec (response_codes : List UInt32) (path_index : Nat) (regions : List region_t)
    (region_index : Nat) (current : RegionMatch) :
    (∃ (i : Nat) (region : region_t), IsFirstLong regions (path_index + 1) i region ∧
      scan_regions response_codes path_index regions region_index current =
        { matching_region_index := region_index + i
          matched_exactly := region.state_count = path_index + 1 ∧
            memcmp_eq response_codes (region.state_sequence.getD []) region.state_count = true }) ∨
    ((∀ (k : Nat) (short : region_t), regions[k]? = some short → short.state_count < path_index + 1) ∧
      scan_regions response_codes path_index regions region_index current = current) := by
  induction regions generalizing region_index with
  | nil => exact Or.inr ⟨fun k short hk => by simp at hk, rfl⟩
  | cons region regions ih =>
    rw [scan_regions]
    by_cases hlong : path_index + 1 ≤ region.state_count
    · left
      rw [if_pos hlong]
      refine ⟨0, region, ⟨rfl, hlong, fun k short hk _ => absurd hk (Nat.not_lt_zero k)⟩, ?_⟩
      have hlen : path_index = region.state_count - 1 ↔ region.state_count = path_index + 1 := by omega
      simp only [hlen, Nat.add_zero]
    · rw [if_neg hlong]
      rcases ih (region_index + 1) with ⟨i, found, hfound, heq⟩ | ⟨hall, heq⟩
      · left
        refine ⟨i + 1, found, ⟨by simpa using hfound.get, hfound.long, ?_⟩, ?_⟩
        · intro k short hk hshort
          cases k with
          | zero =>
            cases hshort
            omega
          | succ k => exact hfound.first k short (by omega) (by simpa using hshort)
        · rw [heq]
          congr 1
          omega
      · right
        refine ⟨?_, heq⟩
        intro k short hshort
        cases k with
        | zero =>
          cases hshort
          omega
        | succ k => exact hall k short (by simpa using hshort)

/-- Regions that are annotated with prefixes of the response agree with it. -/
theorem scan_regions_cases {response_codes : List UInt32} (path_index : Nat) {regions : List region_t}
    (hregions : ∀ region ∈ regions, region.codes <+: response_codes) (region_index : Nat) (current : RegionMatch) :
    (∃ (i : Nat) (region : region_t), IsFirstLong regions (path_index + 1) i region ∧
      scan_regions response_codes path_index regions region_index current =
        { matching_region_index := region_index + i, matched_exactly := region.state_count = path_index + 1 }) ∨
    ((∀ (k : Nat) (short : region_t), regions[k]? = some short → short.state_count < path_index + 1) ∧
      scan_regions response_codes path_index regions region_index current = current) := by
  rcases scan_regions_spec response_codes path_index regions region_index current with ⟨i, region, hfound, heq⟩ | hnone
  · have hsame := memcmp_eq_of_prefix (hregions region (List.mem_of_getElem? hfound.get))
    simp only [hsame, and_true] at heq
    exact Or.inl ⟨i, region, hfound, heq⟩
  · exact Or.inr hnone

/-- A region that may be looked at is one in use, and its index is below the number of codes. -/
theorem get_of_scanned {q : queue_entry} {response_codes : List UInt32} {i : Nat} {region : region_t}
    (h : (scanned_regions q response_codes)[i]? = some region) :
    q.live_regions[i]? = some region ∧ i < response_codes.length := by
  rw [scanned_regions, List.getElem?_take] at h
  split at h
  · rename_i hlt
    exact ⟨h, hlt⟩
  · cases h

/-- Conversely, a region in use with such an index may be looked at. -/
theorem get_scanned {q : queue_entry} {response_codes : List UInt32} {i : Nat} {region : region_t}
    (h : q.live_regions[i]? = some region) (hlt : i < response_codes.length) :
    (scanned_regions q response_codes)[i]? = some region := by
  rw [scanned_regions, List.getElem?_take, if_pos hlt, h]

/-- The first of the regions scanned is the first of all. -/
theorem IsFirstLong.of_scanned {q : queue_entry} {response_codes : List UInt32} {depth i : Nat} {region : region_t}
    (h : IsFirstLong (scanned_regions q response_codes) depth i region) : IsFirstLong q.live_regions depth i region := by
  obtain ⟨hget, hlt⟩ := get_of_scanned h.get
  exact ⟨hget, h.long, fun k short hk hshort => h.first k short hk (get_scanned hshort (Nat.lt_trans hk hlt))⟩

theorem get_of_live {q : queue_entry} {i : Nat} {region : region_t} (h : q.live_regions[i]? = some region) :
    q.regions[i]? = some region := by
  rw [queue_entry.live_regions, List.getElem?_take] at h
  split at h
  · exact h
  · cases h

/-- What the two variables of the region scan say once the walk is at `depth`, if the regions
are annotated with prefixes: whether a region ends here, and that none before the index is
longer. -/
structure RegionMatch.Covers (q : queue_entry) (response_codes : List UInt32) (depth : Nat) (current : RegionMatch) :
    Prop where
  passed : ∀ (k : Nat) (region : region_t), k < current.matching_region_index + current.matched_exactly.toNat →
    (scanned_regions q response_codes)[k]? = some region → region.state_count ≤ depth
  exact_iff : current.matched_exactly = true ↔ 2 ≤ depth ∧ exact_at (scanned_lengths q response_codes) depth = true
  found : 2 ≤ depth → ∀ len, (scanned_lengths q response_codes).find? (fun len => depth ≤ len) = some len →
    (scanned_lengths q response_codes)[current.matching_region_index]? = some len

/-- Before the scan has looked at anything, the first region is the one to begin with. -/
theorem RegionMatch.covers_start (q : queue_entry) (response_codes : List UInt32) :
    RegionMatch.Covers q response_codes 1 { matching_region_index := 0, matched_exactly := false } where
  passed := fun k _ hk => absurd hk (Nat.not_lt_zero k)
  exact_iff := by simp
  found := fun hdepth => absurd hdepth (by omega)

/-- The regions that may be looked at are annotated with prefixes if all regions are. -/
theorem scanned_prefixed {q : queue_entry} {response_codes : List UInt32} (h : Prefixed q response_codes) :
    ∀ region ∈ scanned_regions q response_codes, region.codes <+: response_codes :=
  fun region hregion => (h region (List.mem_of_mem_take hregion)).2

/-- A response that some scanned region matches beyond the initial state is matched
exactly at its end. -/
theorem exact_at_length {q : queue_entry} {response_codes : List UInt32} (hstarts : Prefixed q response_codes)
    (hlong : ∃ len ∈ scanned_lengths q response_codes, 2 ≤ len) :
    exact_at (scanned_lengths q response_codes) response_codes.length = true := by
  rw [exact_at]
  cases hfind : (scanned_lengths q response_codes).find? fun len => response_codes.length ≤ len with
  | none =>
    obtain ⟨len, hmem, htwo⟩ := hlong
    exact List.any_eq_true.mpr ⟨len, hmem, by simpa using htwo⟩
  | some len =>
    have hge : response_codes.length ≤ len := by simpa using List.find?_some hfind
    obtain ⟨region, hregion, rfl⟩ := List.mem_map.mp (List.mem_of_find?_eq_some hfind)
    have hle := (scanned_prefixed hstarts region hregion).length_le
    rw [region.length_codes] at hle
    simpa using Nat.le_antisymm hle hge

section scan

variable {q : queue_entry} {response_codes : List UInt32} {depth : Nat}

/-- The scan has found the first region that is long enough for the next position. -/
theorem RegionMatch.covers_of_found {found : Nat} {region : region_t}
    (hregion : (scanned_regions q response_codes)[found]? = some region) (hlong : depth + 1 ≤ region.state_count)
    (hfirst : ∀ (k : Nat) (short : region_t), k < found → (scanned_regions q response_codes)[k]? = some short →
      short.state_count < depth + 1) (hdepth : 1 ≤ depth) :
    RegionMatch.Covers q response_codes (depth + 1)
      { matching_region_index := found, matched_exactly := region.state_count = depth + 1 } := by
  have hlen : (scanned_lengths q response_codes)[found]? = some region.state_count := by
    rw [scanned_lengths, List.getElem?_map, hregion]
    rfl
  have hfind : (scanned_lengths q response_codes).find? (fun len => depth + 1 ≤ len) = some region.state_count := by
    rw [List.find?_eq_some_iff_getElem]
    obtain ⟨hlt, hget⟩ := List.getElem?_eq_some_iff.mp hlen
    refine ⟨by simpa using hlong, found, hlt, hget, ?_⟩
    intro k hk
    have hklt : k < (scanned_regions q response_codes).length := by
      rw [scanned_lengths, List.length_map] at hlt
      omega
    have hshort := hfirst k _ hk (List.getElem?_eq_getElem hklt)
    simp only [scanned_lengths, List.getElem_map, Bool.not_eq_true', decide_eq_false_iff_not]
    omega
  constructor
  · intro k short hk hshort
    by_cases hlt : k < found
    · exact Nat.le_of_lt (hfirst k short hlt hshort)
    · by_cases hexact : region.state_count = depth + 1
      · have hki : k = found := by
          simp only [hexact, decide_true, Bool.toNat_true] at hk
          omega
        rw [hki, hregion] at hshort
        cases hshort
        omega
      · simp only [hexact, decide_false, Bool.toNat_false, Nat.add_zero] at hk
        exact absurd hk hlt
  · rw [exact_at, hfind]
    simp only [decide_eq_true_eq]
    omega
  · intro _ len hlen'
    rw [hfind] at hlen'
    rw [hlen, ← hlen']

/-- No region is long enough for the next position, so that the scan leaves its
variables as they are. -/
theorem RegionMatch.Covers.of_short {current : RegionMatch} (h : current.Covers q response_codes depth)
    (hdepth : 1 ≤ depth) (hshort : ∀ (k : Nat) (short : region_t), (scanned_regions q response_codes)[k]? = some short →
      short.state_count < depth + 1) : current.Covers q response_codes (depth + 1) := by
  have hlengths : ∀ len ∈ scanned_lengths q response_codes, len < depth + 1 := by
    intro len hlen
    obtain ⟨region, hregion, rfl⟩ := List.mem_map.mp hlen
    obtain ⟨k, hk⟩ := List.mem_iff_getElem?.mp hregion
    exact hshort k region hk
  have hnone : (scanned_lengths q response_codes).find? (fun len => depth + 1 ≤ len) = none := by
    rw [List.find?_eq_none]
    intro len hlen
    have hlt := hlengths len hlen
    simp only [decide_eq_true_eq]
    omega
  refine ⟨fun k region _ hk => Nat.le_of_lt (hshort k region hk), ?_, ?_⟩
  · rw [h.exact_iff, exact_at, exact_at, hnone]
    dsimp only
    by_cases hone : depth = 1
    · subst hone
      constructor
      · rintro ⟨hfalse, _⟩
        exact absurd hfalse (by decide)
      · rintro ⟨_, hany⟩
        obtain ⟨len, hlen, htwo⟩ := List.any_eq_true.mp hany
        have hlt := hlengths len hlen
        simp only [decide_eq_true_eq] at htwo
        omega
    · cases hfind : (scanned_lengths q response_codes).find? (fun len => depth ≤ len) with
      | none => simp only [show 2 ≤ depth by omega, show 2 ≤ depth + 1 by omega, true_and]
      | some len =>
        have hmem := List.mem_of_find?_eq_some hfind
        have hle : depth ≤ len := by simpa using List.find?_some hfind
        have hlt := hlengths len hmem
        have hany : (scanned_lengths q response_codes).any (fun len => 2 ≤ len) = true :=
          List.any_eq_true.mpr ⟨len, hmem, by simp; omega⟩
        simp only [hany, and_true, decide_eq_true_eq]
        omega
  · intro _ len hlen
    rw [hnone] at hlen
    cases hlen

end scan

/-- One scan: the regions that have been passed are too short for every later
position, so the scan finds the first region that is long enough at all. -/
theorem RegionMatch.Covers.match_regions {q : queue_entry} {response_codes : List UInt32}
    (hstarts : Prefixed q response_codes) {depth : Nat} (hdepth : 1 ≤ depth) {current : RegionMatch}
    (h : current.Covers q response_codes depth) :
    (mcts.match_regions q response_codes depth current).Covers q response_codes (depth + 1) := by
  have hscan := scan_regions_cases depth
    (fun region (hregion : region ∈ (scanned_regions q response_codes).drop
      (current.matching_region_index + current.matched_exactly.toNat)) => scanned_prefixed hstarts region (List.mem_of_mem_drop hregion))
    (current.matching_region_index + current.matched_exactly.toNat) current
  rw [mcts.match_regions]
  generalize hstart : current.matching_region_index + current.matched_exactly.toNat = start at hscan ⊢
  have hpassed := h.passed
  rw [hstart] at hpassed
  rcases hscan with ⟨i, region, ⟨hi, hlong, hbefore⟩, heq⟩ | ⟨hall, heq⟩
  · rw [heq]
    rw [List.getElem?_drop] at hi
    apply RegionMatch.covers_of_found hi hlong ?_ hdepth
    intro k short hk hshort
    by_cases hlt : k < start
    · exact Nat.lt_succ_of_le (hpassed k short hlt hshort)
    · refine hbefore (k - start) short (by omega) ?_
      rw [List.getElem?_drop, show start + (k - start) = k by omega, hshort]
  · rw [heq]
    apply h.of_short hdepth
    intro k short hk
    by_cases hlt : k < start
    · exact Nat.lt_succ_of_le (hpassed k short hlt hk)
    · refine hall (k - start) short ?_
      rw [List.getElem?_drop, show start + (k - start) = k by omega, hk]

end aflnet.mcts
