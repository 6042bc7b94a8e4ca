import AflnetLegion.Mcts.Along
import AflnetLegion.Mcts.Split

open Checked

namespace aflnet.mcts

/-- What the second round reads at one position is there: the response is as long as the `memcmp`
of the scan wants it, and the region of a match that is left over has a code for every position
a seed is stored at. -/
structure RegionsReach (t : MctsTree) (q : queue_entry) (response_codes : List UInt32) (path_index : Nat) : Prop where
  compared : ∀ i region, IsFirstLong (scanned_regions q response_codes) (path_index + 1) i region →
    region.state_count ≤ 4 * response_codes.length
  left_over : ∀ i region, LeftOver q response_codes i region → region.state_count ≤ path_index →
    t.TakesSeed response_codes path_index → path_index + 1 ≤ (region.state_sequence.getD []).length

/-- What `Expansion` needs in order to come to its end without reading a NULL pointer or past an
array: a code after the initial state; all codes of the response in the array of the last
region, which a log line reads; a code in that of region 0, which the seed of the root is
compared with; and what the second round reads. -/
structure MctsTree.ReadsThere (t : MctsTree) (q : queue_entry) (response_codes : List UInt32) : Prop where
  long : 2 ≤ response_codes.length
  last_region : ∀ region, q.live_regions.getLast? = some region →
    response_codes.length ≤ (region.state_sequence.getD []).length
  first_region : ∀ region, q.regions[0]? = some region → 1 ≤ (region.state_sequence.getD []).length
  second_round : ∀ path_index, 1 ≤ path_index → path_index < response_codes.length →
    RegionsReach t q response_codes path_index

/-- One iteration reads what `RegionsReach` says. -/
theorem Walk.Along.reads_iff {t : MctsTree} {q : queue_entry} {response_codes : List UInt32} {depth : Nat} {code : UInt32}
    {s : Walk} (h : s.Along t q response_codes depth) (hm : mcts.Measured t) (ht : Linked t) (hdepth : 1 ≤ depth)
    (hcode : response_codes[depth]? = some code) :
    s.Reads q response_codes depth code ↔ RegionsReach t q response_codes depth := by
  have hwhite : ∀ i region, LeftOver q response_codes i region → region.state_count ≤ depth →
      ((s.dyed q response_codes depth code).colour? (s.next depth response_codes.length code) = some .White ↔
        t.TakesSeed response_codes depth) := by
    intro i region hover hle
    have hbefore := h.stands.matched i region hover hle
    have hafter := (h.stands.match_regions hdepth).matched i region hover (Nat.le_succ_of_le hle)
    exact h.white_iff hm ht hdepth hcode (by rw [hbefore]) (by rw [hafter])
  rw [h.measured.reads_iff h.stands hcode]
  constructor
  · rintro ⟨hcompared, hleft⟩
    exact ⟨hcompared, fun i region hover hle htakes => hleft i region hover hle ((hwhite i region hover hle).mpr htakes)⟩
  · intro hreach
    exact ⟨hreach.compared, fun i region hover hle hdyed =>
      hreach.left_over i region hover hle ((hwhite i region hover hle).mp hdyed)⟩

/-- All the iterations from a depth on read what is there exactly if each position does. -/
theorem Walk.Along.visit_reads_iff {t : MctsTree} {q : queue_entry} {response_codes : List UInt32} {depth : Nat} {s : Walk}
    (h : s.Along t q response_codes depth) (hm : mcts.Measured t) (ht : Linked t) (hdepth : 1 ≤ depth)
    {codes : List UInt32} (hcodes : response_codes.drop depth = codes) :
    visit_reads q response_codes depth codes s ↔
      ∀ path_index, depth ≤ path_index → path_index < response_codes.length → RegionsReach t q response_codes path_index := by
  induction codes generalizing depth s with
  | nil =>
    have hlen := List.drop_eq_nil_iff.mp hcodes
    exact iff_of_true trivial fun path_index hle hlt => by omega
  | cons code codes ih =>
    have hcode : response_codes[depth]? = some code := by
      rw [← List.head?_drop, hcodes]
      rfl
    have hrest : response_codes.drop (depth + 1) = codes := by
      rw [← List.tail_drop, hcodes]
      rfl
    rw [visit_reads, h.reads_iff hm ht hdepth hcode,
      ih (h.visit hm ht hdepth hcode) (Nat.le_succ_of_le hdepth) hrest]
    constructor
    · rintro ⟨hhere, hlater⟩ path_index hle hlt
      rcases Nat.eq_or_lt_of_le hle with rfl | hnext
      · exact hhere
      · exact hlater path_index hnext hlt
    · intro hall
      exact ⟨hall depth (Nat.le_refl _) (List.getElem?_eq_some_iff.mp hcode).1,
        fun path_index hle hlt => hall path_index (Nat.le_of_succ_le hle) hlt⟩

/-- The reads of a whole `Expansion`. -/
theorem Measured.reads_iff {t : MctsTree} (h : Measured t) (ht : Linked t) {q : queue_entry} (hregions : 0 < q.region_count)
    {response_codes : List UInt32} (hlen : 2 ≤ response_codes.length) :
    t.Reads q response_codes ↔ t.ReadsThere q response_codes := by
  have hround := (Walk.Along.start h ht hregions response_codes).visit_reads_iff h ht (Nat.le_refl 1) List.drop_one
  obtain ⟨r, hr, _, hwhite⟩ := ht.root
  obtain ⟨s, m, hsim, hs, _⟩ := ht.sim hr hwhite
  have hpath : m.data.path_len = 1 := by
    rw [h.simulation hr hwhite hsim hs, ← TreeNodeData.depth_of_ne (by simp [hwhite]), h.root hr]
  constructor
  · intro hreads
    refine ⟨hlen, hreads.last_region, fun region hregion => ?_, hround.mp hreads.rounds⟩
    rw [← hpath]
    exact hreads.root_region r m s region hr hsim hs hregion
  · intro hthere
    refine { root_region := ?_, rounds := hround.mpr hthere.second_round, last_region := hthere.last_region }
    intro r' m' s' region hr' hsim' hs' hregion
    rw [hr] at hr'
    cases hr'
    rw [hsim] at hsim'
    cases hsim'
    rw [hs] at hs'
    cases hs'
    rw [hpath]
    exact hthere.first_region region hregion

end aflnet.mcts
