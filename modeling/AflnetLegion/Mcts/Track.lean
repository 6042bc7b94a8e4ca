import AflnetLegion.Mcts.Scan
import AflnetLegion.Mcts.Trie

open Checked

namespace aflnet.mcts

theorem MctsTree.colour?_add {t : MctsTree} {u v : NodeId} (d : TreeNodeData) (hv : v < t.nodes.length) :
    (t.add u d).colour? v = t.colour? v := by
  rw [MctsTree.colour?, t.getElem?_add_old d hv, MctsTree.colour?, Option.map_map]
  congr 1
  funext n
  by_cases huv : u = v <;> simp [huv]

theorem MctsTree.colour?_dye {t : MctsTree} {u v : NodeId} (path : List UInt32) (hv : v < t.nodes.length)
    (hne : u ≠ v) : (t.dye u path).colour? v = t.colour? v := by
  rw [MctsTree.dye, MctsTree.colour?, MctsTree.getElem?_modify_ne _ hne]
  exact MctsTree.colour?_add _ hv

theorem MctsTree.SameBy.colour? {t t' : MctsTree} (h : SameBy GNode.label t t') (v : NodeId) :
    t'.colour? v = t.colour? v :=
  h.map (fun l : Label => l.links.colour) v

/-- The calls the fuzzer makes: a plain response, regions annotated with prefixes
of it, the last one with all of it. -/
structure WellAnnotated (t : MctsTree) (q : queue_entry) (response_codes : List UInt32) : Prop where
  plain : Plain response_codes
  prefixed : Prefixed q response_codes
  complete : q.live_regions.getLast?.map region_t.codes = some response_codes

/-- What the walk of a response through `t` has done once it is at `depth`. It relates the tree
in the middle of the second round to the one before it, node by node. -/
structure Walk.Tracked (t : MctsTree) (q : queue_entry) (response_codes : List UInt32) (depth : Nat) (s : Walk) :
    Prop where
  positive : 1 ≤ depth
  covers : s.regions.Covers q response_codes depth
  /-- Deeper nodes are untouched. -/
  below : ∀ k, depth < k → k ≤ response_codes.length → ∀ v,
    (s.tree.At v (response_codes.take k) ↔ t.At v (response_codes.take k)) ∧
    (t.At v (response_codes.take k) → s.tree.colour? v = t.colour? v)
  new_iff : s.new_node = true ↔ ¬ t.Has (response_codes.take depth)
  new_white : s.new_node = true → s.regions.matched_exactly = true → s.tree.colour? s.tree_node = some .White
  old_black : s.new_node = false → t.At s.tree_node (response_codes.take depth) ∧
    (s.tree.colour? s.tree_node = some .Black → t.colour? s.tree_node = some .Black ∧
      (s.regions.matched_exactly = true → depth = response_codes.length))

namespace Walk.Tracked

variable {t : MctsTree} {q : queue_entry} {response_codes : List UInt32} {depth : Nat} {code : UInt32} {s : Walk}

theorem start (h : Shape t) (hcodes : Plain response_codes) :
    (Walk.start (t.seed ROOT q 0) ROOT).Tracked t q response_codes 1 where
  positive := Nat.le_refl 1
  covers := RegionMatch.covers_start q response_codes
  below := by
    intro k _ _ v
    have hlabel := t.seed_label ROOT q 0
    exact ⟨⟨fun hv => hv.of_label hlabel.symm, fun hv => hv.of_label hlabel⟩, fun _ => hlabel.colour? v⟩
  new_iff := by
    rw [hcodes.take_one]
    exact ⟨fun hfalse => absurd hfalse Bool.false_ne_true, fun hnot => absurd ⟨ROOT, h.at_root⟩ hnot⟩
  new_white := fun hfalse => absurd hfalse Bool.false_ne_true
  old_black := by
    intro _
    rw [hcodes.take_one]
    exact ⟨h.at_root, fun hblack => ⟨((t.seed_label ROOT q 0).colour? ROOT).symm.trans hblack,
      fun hfalse => absurd hfalse Bool.false_ne_true⟩⟩

theorem take_ne_take {codes : List UInt32} {i k : Nat} (hik : i < k) (hk : k ≤ codes.length) :
    codes.take i ≠ codes.take k := by
  intro heq
  have hlen := congrArg List.length heq
  rw [List.length_take, List.length_take] at hlen
  omega

/-- The colour of a node off the current position does not change. -/
theorem colour_visit (hs : s.Sound q response_codes depth) (hcode : response_codes[depth]? = some code)
    (h999 : code ≠ 999) {v : NodeId} {x : List UInt32} (hv : s.tree.At v x)
    (hx : x ≠ response_codes.take (depth + 1)) :
    (visit q response_codes depth code s).tree.colour? v = s.tree.colour? v := by
  refine (hs.visit_rule hcode h999 (I := fun t => t.At v x ∧ t.colour? v = s.tree.colour? v) ⟨hv, rfl⟩ ?_ ?_ ?_ ?_).2
  · rintro t t' hsame ⟨hat, hcolour⟩
    exact ⟨hat.of_label hsame.label, (hsame.label.colour? v).trans hcolour⟩
  · rintro t _ ⟨hat, hcolour⟩ _ _
    exact ⟨hat.add _ _, (MctsTree.colour?_add _ hat.lt).trans hcolour⟩
  · rintro t u _ ⟨hat, hcolour⟩ hu _ _
    refine ⟨hat.dye _ _, (MctsTree.colour?_dye _ hat.lt ?_).trans hcolour⟩
    rintro rfl
    obtain ⟨n, hn, _, hpath⟩ := hat
    obtain ⟨m, hm, _, hpath'⟩ := hu
    rw [hn] at hm
    cases hm
    exact hx (hpath.symm.trans hpath')
  · rintro t u _ ⟨hat, hcolour⟩ _ _ _ _
    exact ⟨hat.of_label (MctsTree.seed_label _ _ _ _), ((MctsTree.seed_label _ _ _ _).colour? v).trans hcolour⟩

/-- The colour of the node the iteration ends at. -/
theorem colour_next (hs : s.Sound q response_codes depth) (hcode : response_codes[depth]? = some code)
    (h999 : code ≠ 999) :
    (visit q response_codes depth code s).tree.colour? (visit q response_codes depth code s).tree_node =
      if (match_regions q response_codes depth s.regions).matched_exactly = true ∧
          (s.grown response_codes depth code).colour? (s.next depth response_codes.length code) = some .Black ∧
          (s.appends depth response_codes.length code = true ∨ depth + 1 ≠ response_codes.length)
      then some .White else (s.grown response_codes depth code).colour? (s.next depth response_codes.length code) := by
  obtain ⟨_, _, hat⟩ := hs.grow hcode h999
  have hdyed : (s.dyed q response_codes depth code).colour? (s.next depth response_codes.length code) =
      if (match_regions q response_codes depth s.regions).matched_exactly = true ∧
          (s.grown response_codes depth code).colour? (s.next depth response_codes.length code) = some .Black ∧
          (s.appends depth response_codes.length code = true ∨ depth + 1 ≠ response_codes.length)
      then some .White else (s.grown response_codes depth code).colour? (s.next depth response_codes.length code) := by
    rw [Walk.dyed]
    split
    · obtain ⟨n, hn, _⟩ := hat
      rw [MctsTree.colour?_eq (MctsTree.getElem?_dye_self hn _)]
    · rfl
  rw [← hdyed, visit_eq]
  dsimp only
  split
  · exact (MctsTree.seed_matched_label _ _ _ _ _).colour? _
  · rfl

/-- One iteration colours the node of its position by what the scan says there, and no other old
node. -/
protected theorem visit (h : s.Tracked t q response_codes depth) (hprefixed : Prefixed q response_codes)
    (hs : s.Sound q response_codes depth) (hcode : response_codes[depth]? = some code) (h999 : code ≠ 999) :
    (visit q response_codes depth code s).Tracked t q response_codes (depth + 1) := by
  have hlt := (List.getElem?_eq_some_iff.mp hcode).1
  obtain ⟨hnew, _, hat⟩ := hs.grow hcode h999
  have hbelow := h.below (depth + 1) (Nat.lt_succ_self _) hlt
  have hnew_iff : s.appends depth response_codes.length code = true ↔ ¬ t.Has (response_codes.take (depth + 1)) := by
    rw [hnew]
    constructor
    · rintro hnone ⟨v, hv⟩
      exact hnone v ((hbelow v).1.mpr hv)
    · intro hnot v hv
      exact hnot ⟨v, (hbelow v).1.mp hv⟩
  have hcolour := colour_next hs hcode h999
  have hnode : (visit q response_codes depth code s).tree_node = s.next depth response_codes.length code := by
    rw [visit_eq]
  have hflag : (visit q response_codes depth code s).new_node = s.appends depth response_codes.length code := by
    rw [visit_eq]
  have hregions : (visit q response_codes depth code s).regions = match_regions q response_codes depth s.regions := by
    rw [visit_eq]
  refine ⟨Nat.le_add_left 1 depth, ?_, ?_, ?_, ?_, ?_⟩
  · rw [hregions]
    exact h.covers.match_regions hprefixed h.positive
  · intro k hk hle v
    obtain ⟨hiff, hsame⟩ := h.below k (Nat.lt_of_succ_lt hk) hle v
    have hne : response_codes.take k ≠ response_codes.take (depth + 1) := (take_ne_take hk hle).symm
    refine ⟨⟨fun hv => ?_, fun hv => hs.at_visit hcode h999 (hiff.mpr hv)⟩, fun hv => ?_⟩
    · exact hiff.mp ((hs.of_at_visit hcode h999 hv).resolve_right hne)
    · rw [colour_visit hs hcode h999 (hiff.mpr hv) hne, hsame hv]
  · rw [hflag, hnew_iff]
  · rw [hflag, hregions, hcolour]
    intro hyes hexact
    have hblack : (s.grown response_codes depth code).colour? (s.next depth response_codes.length code) = some .Black := by
      rw [Walk.grown, Walk.next, if_pos hyes, if_pos hyes, MctsTree.colour?_eq (MctsTree.getElem?_add_new _ _ _)]
      rfl
    rw [if_pos ⟨hexact, hblack, Or.inl hyes⟩]
  · rw [hflag, hregions, hcolour, hnode]
    intro hno
    have hgrown : s.grown response_codes depth code = s.unmarked depth response_codes.length := by
      rw [Walk.grown, hno]
      rfl
    have hlabel := (s.tree.unmark_same s.tree_node depth response_codes.length).label
    rw [hgrown] at hat ⊢
    have hat' : s.tree.At (s.next depth response_codes.length code) (response_codes.take (depth + 1)) :=
      hat.of_label hlabel.symm
    have hold := (hbelow _).1.mp hat'
    have hsame : (s.unmarked depth response_codes.length).colour? (s.next depth response_codes.length code) =
        t.colour? (s.next depth response_codes.length code) := (hlabel.colour? _).trans ((hbelow _).2 hold)
    refine ⟨hold, ?_⟩
    rw [hsame]
    split
    · intro hfalse
      cases hfalse
    · rename_i hdye
      intro hblack
      refine ⟨hblack, fun hexact => ?_⟩
      by_contra hne
      exact hdye ⟨hexact, hblack, Or.inr hne⟩

end Walk.Tracked

/-- The whole walk, with everything known about it between two iterations. -/
theorem Shape.walk_tracked {t : MctsTree} (h : Shape t) {q : queue_entry} (hregions : 0 < q.region_count)
    {response_codes : List UInt32} (hcodes : Plain response_codes) (hprefixed : Prefixed q response_codes)
    {J : Nat → Walk → Prop}
    (hstep : ∀ {depth : Nat} {code : UInt32} {s : Walk}, s.Sound q response_codes depth →
      s.Tracked t q response_codes depth → response_codes[depth]? = some code → code ≠ 999 → J depth s →
      J (depth + 1) (visit q response_codes depth code s))
    (hJ : J 1 (Walk.start (t.seed ROOT q 0) ROOT)) :
    (t.walk q response_codes).Tracked t q response_codes response_codes.length ∧
      J response_codes.length (t.walk q response_codes) :=
  (h.walk_rule hregions hcodes (J := fun depth s => s.Tracked t q response_codes depth ∧ J depth s)
    (fun hs hcode h999 ih => ⟨ih.1.visit hprefixed hs hcode h999, hstep hs ih.1 hcode h999 ih.2⟩)
    ⟨Walk.Tracked.start h hcodes, hJ⟩).2

end aflnet.mcts
