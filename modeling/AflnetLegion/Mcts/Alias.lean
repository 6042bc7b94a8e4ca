import AflnetLegion.Mcts.Colour
import AflnetLegion.Mcts.Follow
import AflnetLegion.Mcts.Track

open Checked

namespace aflnet.mcts

/-- The second round after its first `count` iterations. -/
def MctsTree.walk_to (t : MctsTree) (q : queue_entry) (response_codes : List UInt32) (count : Nat) : Walk :=
  visit_all q response_codes 1 (response_codes.tail.take count) (Walk.start (t.seed ROOT q 0) ROOT)

/-- Both rounds of `Expansion` step from response node to response node, and no
SimNode has a child afterwards. -/
structure StaysOnResponses (t : MctsTree) (q : queue_entry) (response_codes : List UInt32) : Prop where
  first_round : ∀ count v, count < response_codes.length → t.follow ROOT (response_codes.tail.take count) = some v →
    t.At v (response_codes.take (count + 1))
  second_round : ∀ count, count < response_codes.length →
    (t.walk_to q response_codes count).tree.At (t.walk_to q response_codes count).tree_node
      (response_codes.take (count + 1))
  leaves : ∀ (v : NodeId) (n : GNode), (t.expand q response_codes).1.nodes[v]? = some n → n.data.colour = .Golden → n.children = []

namespace Shape

variable {t : MctsTree} {v c : NodeId} {x : List UInt32}

/-- Following codes other than 999 from the node with path `x` leads to the node whose path goes
on with them. -/
theorem follow_iff (h : Shape t) (hv : t.At v x) {codes : List UInt32} (h999 : 999 ∉ codes) :
    t.follow v codes = some c ↔ t.At c (x ++ codes) := by
  induction codes generalizing v x with
  | nil =>
    rw [MctsTree.follow, List.append_nil]
    constructor
    · intro heq
      cases heq
      exact hv
    · intro hc
      rw [h.at_unique hv hc]
  | cons code codes ih =>
    rw [List.mem_cons, not_or] at h999
    have hne : code ≠ 999 := fun heq => h999.1 heq.symm
    have hsplit : x ++ code :: codes = x ++ [code] ++ codes := by simp
    rw [MctsTree.follow, hsplit]
    cases hchild : t.child_with_id v code with
    | none =>
      have hnone := (h.child_with_id_eq_none_iff hv hne).mp hchild
      refine ⟨fun hfalse => absurd hfalse (by simp), fun hc => ?_⟩
      obtain ⟨u, hu⟩ := h.has_of_prefix ⟨c, hc⟩ (by simp) (List.prefix_append (x ++ [code]) codes)
      exact absurd hu (hnone u)
    | some u => exact ih ((h.child_with_id_iff hv hne).mp hchild) h999.2

/-- The code 999 leads from a White node to its SimNode. -/
theorem child_999_of_white (h : Shape t) (hwhite : t.colour? v = some .White) :
    ∃ s, t.child_with_id v 999 = some s ∧ t.colour? s = some .Golden := by
  obtain ⟨n, hn, hcolour⟩ := Option.map_eq_some_iff.mp hwhite
  obtain ⟨s, hmem, hsim, honly⟩ := h.golden_child_iff hn hcolour
  have hgolden := (honly s hmem).mpr rfl
  obtain ⟨m, hm, hparent⟩ := h.child hn hmem
  have hid : m.data.id = 999 := by
    rw [MctsTree.colour?_eq hm] at hgolden
    exact (h.golden hm (Option.some.inj hgolden)).2.1
  have hsome : (t.child_with_id v 999).isSome := by
    rw [MctsTree.child_with_id, hn, Option.bind_some, List.find?_isSome]
    exact ⟨s, hmem, by simp [hm, hid]⟩
  obtain ⟨c, hc⟩ := Option.isSome_iff_exists.mp hsome
  obtain ⟨_, k, hk, hparent', hid'⟩ := h.child_with_id_spec hn hc
  have hcs : c = s := h.distinct hk hm (by rw [hparent', hparent]) (by rw [hid', hid])
  exact ⟨s, by rw [hc, hcs], hgolden⟩

/-- A response without the code 999 keeps both rounds on response nodes. -/
theorem stays_on_responses (h : Shape t) {q : queue_entry} (hregions : 0 < q.region_count)
    {response_codes : List UInt32} (hcodes : Plain response_codes) : StaysOnResponses t q response_codes where
  first_round := by
    intro count v hcount hfollow
    have h999 : 999 ∉ response_codes.tail.take count := fun hmem =>
      hcodes.unmarked (List.mem_of_mem_tail (List.mem_of_mem_take hmem))
    have hat := (h.follow_iff h.at_root h999).mp hfollow
    rwa [← hcodes.take_one, ← List.drop_one, ← List.take_add, Nat.add_comm] at hat
  second_round := by
    intro count hcount
    have hsound := ((h.start_sound hregions hcodes.take_one).visit_all_rule (J := fun _ _ => True)
      (fun _ _ _ _ => trivial)
      (show response_codes.tail.take count <+: response_codes.drop 1 by rw [List.drop_one]; exact List.take_prefix _ _)
      (fun hmem => hcodes.unmarked (List.mem_of_mem_tail (List.mem_of_mem_take hmem))) trivial).1
    have hlen : 1 + (response_codes.tail.take count).length = count + 1 := by
      rw [List.length_take, List.length_tail]
      omega
    rw [hlen] at hsound
    exact hsound.here
  leaves := fun v n hv hgolden => ((h.expand hregions hcodes).golden hv hgolden).1

end Shape

/-- A response that goes on with the code 999 behind a White node does not. -/
theorem Shape.not_stays_on_responses {t : MctsTree} (h : Shape t) {q : queue_entry} {start rest : List UInt32}
    (hstart : start.take 1 = [0]) (h999 : 999 ∉ start) {v : NodeId} (hv : t.At v start)
    (hwhite : t.colour? v = some .White) : ¬ StaysOnResponses t q (start ++ 999 :: rest) := by
  intro hstays
  obtain ⟨s, hs, hgolden⟩ := h.child_999_of_white hwhite
  cases start with
  | nil => cases hstart
  | cons code codes =>
    have hcode : [code] = [0] := hstart
    rw [List.mem_cons, not_or] at h999
    have hfollow : t.follow ROOT codes = some v := by
      rw [h.follow_iff h.at_root h999.2, ← hcode]
      exact hv
    have hnext : t.follow ROOT (codes ++ [999]) = some s := by
      rw [MctsTree.follow_append, hfollow, Option.bind_some, MctsTree.follow, hs, Option.bind_some, MctsTree.follow]
    have htake : ((code :: codes) ++ 999 :: rest).tail.take (codes.length + 1) = codes ++ [999] := by
      simp [List.take_append, List.take_of_length_le]
    obtain ⟨n, hn, hcolour, _⟩ := hstays.first_round (codes.length + 1) s (by simp) (by rw [htake, hnext])
    rw [MctsTree.colour?_eq hn] at hgolden
    exact hcolour (Option.some.inj hgolden)

/-- A queue entry whose only request was answered by all the codes at once. -/
def exact_entry (codes : List UInt32) : queue_entry := .of_regions "id:000005" [.annotated 0 9 codes]

/-- Expanding the initial tree by an exact entry makes a White node of its response. -/
theorem white_of_exact_entry {codes : List UInt32} (hcodes : Plain codes) :
    ∃ v, (MctsTree.initial.expand (exact_entry codes) codes).1.At v codes ∧
      (MctsTree.initial.expand (exact_entry codes) codes).1.colour? v = some .White := by
  have hlong := hcodes.long
  have hne : codes ≠ [] := by
    rintro rfl
    simp at hlong
  have hprefixed : Prefixed (exact_entry codes) codes := by
    intro region hregion
    rw [exact_entry, queue_entry.live_regions_of_regions, List.mem_singleton] at hregion
    rw [hregion, region_t.codes_annotated]
    exact ⟨hne, List.prefix_rfl⟩
  have hscanned : codes.length ∈ scanned_lengths (exact_entry codes) codes := by
    rw [scanned_lengths, scanned_regions, exact_entry, queue_entry.live_regions_of_regions,
      List.take_of_length_le (by rw [List.length_singleton]; omega)]
    simp
  have hsound := shape_initial.walk_sound (q := exact_entry codes) (Nat.zero_lt_one) hcodes
  have htracked := (shape_initial.walk_tracked (q := exact_entry codes) Nat.zero_lt_one hcodes hprefixed
    (J := fun _ _ => True) (fun _ _ _ _ _ => trivial) trivial).1
  have hnew : (MctsTree.initial.walk (exact_entry codes) codes).new_node = true := by
    rw [htracked.new_iff, List.take_length, records_initial.has_iff]
    rintro (rfl | ⟨_, _, hmem, _⟩)
    · simp at hlong
    · cases hmem
  have hexact := htracked.covers.exact_iff.mpr ⟨hlong, exact_at_length hprefixed ⟨_, hscanned, hlong⟩⟩
  have hhere := hsound.here
  rw [List.take_length] at hhere
  have hlabel := (MctsTree.finish_same hsound.here.lt (MctsTree.initial.missing ROOT codes.tail)).label
  exact ⟨_, hhere.of_label hlabel, (hlabel.colour? _).trans (htracked.new_white hnew hexact)⟩

/-- For every response that starts with the initial state: on the trees of all runs
without the code 999 the response keeps `Expansion` off SimNodes if and only if it
does not contain the code 999 itself. -/
theorem Run.stays_on_responses_iff {response_codes : List UInt32} (hhead : response_codes.head? = some 0)
    (hlen : 2 ≤ response_codes.length) :
    (∀ calls t q, Run (fun _ _ codes => Plain codes) calls t → 0 < q.region_count →
      StaysOnResponses t q response_codes) ↔ 999 ∉ response_codes := by
  constructor
  · intro hall h999
    obtain ⟨start, rest, rfl, hbefore⟩ := List.eq_append_cons_of_mem h999
    cases start with
    | nil => cases hhead
    | cons code codes =>
      rw [List.cons_append, List.head?_cons] at hhead
      obtain rfl := Option.some.inj hhead
      cases codes with
      | nil =>
        exact shape_initial.not_stays_on_responses rfl hbefore shape_initial.at_root rfl
          (hall [] .initial (exact_entry [0]) .initial Nat.zero_lt_one)
      | cons next codes =>
        have hplain : Plain (0 :: next :: codes) := ⟨by simp, rfl, hbefore⟩
        obtain ⟨v, hv, hwhite⟩ := white_of_exact_entry hplain
        have hshape := shape_initial.expand (q := exact_entry (0 :: next :: codes)) Nat.zero_lt_one hplain
        have hrun := (Run.initial : Run (fun _ _ codes => Plain codes) [] .initial).expand
          (q := exact_entry (0 :: next :: codes)) hplain Nat.zero_lt_one hplain.long
        exact hshape.not_stays_on_responses rfl hbefore hv hwhite
          (hall _ _ (exact_entry [0]) hrun Nat.zero_lt_one)
  · intro h999 calls t q hrun hregions
    have hshape := (hrun.shape_rule id (J := fun _ _ => True) trivial (fun _ _ _ _ => trivial) (fun _ _ => trivial)).1
    exact hshape.stays_on_responses hregions ⟨hlen, hhead, h999⟩

/-- A response that goes on with 5 behind the entry of the same codes. -/
theorem response_five_stays_on_responses : StaysOnResponses .initial (exact_entry [0, 5]) [0, 5] :=
  (Run.stays_on_responses_iff rfl (by decide)).mpr (by decide) [] .initial (exact_entry [0, 5]) .initial
    Nat.zero_lt_one

/-- A server that answers 999 and then 5 gives the SimNode of the root a child. -/
theorem sim_node_with_child : ∃ calls t,
    Run (fun _ _ codes => codes.head? = some 0) calls t ∧ t.colour? 1 = some .Golden ∧
    t.nodes[1]?.map GNode.children = some [2] ∧
    (MctsTree.initial.walk_to (exact_entry [0, 999, 5]) [0, 999, 5] 1).tree_node = 1 ∧
    Expansion .initial ROOT (exact_entry [0, 999, 5]) [0, 999, 5] false [] = .error (.abort .node_path_len) := by
  have hhead : ([0, 999, 5] : List UInt32).head? = some 0 := rfl
  have hrun := (Run.initial : Run (fun _ _ codes => codes.head? = some 0) [] .initial).expand
    (q := exact_entry [0, 999, 5]) hhead (by decide) (by decide)
  exact ⟨_, _, hrun, rfl, rfl, rfl, rfl⟩

end aflnet.mcts
