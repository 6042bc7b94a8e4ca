import AflnetLegion.Mcts.Reads
import AflnetLegion.Mcts.Track

open Checked

namespace aflnet.mcts

/-- The search for a child depends on links and ids only, so labels that agree give the same
child. -/
theorem MctsTree.SameBy.child_with_id {t t' : MctsTree} (h : SameBy GNode.label t t') (v : NodeId) (code : UInt32) :
    t'.child_with_id v code = t.child_with_id v code := by
  have hids : ∀ c : NodeId, (t'.nodes[c]?.any fun m => decide (m.data.id = code)) =
      t.nodes[c]?.any fun m => decide (m.data.id = code) := by
    intro c
    have hid := congrArg (Option.any fun id => decide (id = code)) (h.map (fun l : Label => l.id) c)
    rw [Option.any_map, Option.any_map] at hid
    exact hid
  have hchildren := h.map (fun l : Label => l.links.children) v
  rw [MctsTree.child_with_id, MctsTree.child_with_id]
  simp only [hids]
  have hbind := congrArg (fun children => children.bind fun cs : List NodeId =>
    cs.find? fun c => t.nodes[c]?.any fun m => decide (m.data.id = code)) hchildren
  simp only [Option.bind_map] at hbind
  exact hbind

/-- Whether a walk of the response through `t`, in which a match is left over, stores a seed at
its node for `path_index`: at one that `t` has if it is White or will be; at a new one always. The
SimNode of a node that has just been turned White is neither. -/
def MctsTree.TakesSeed (t : MctsTree) (response_codes : List UInt32) (path_index : Nat) : Prop :=
  match t.follow ROOT (response_codes.tail.take path_index) with
  | some v => t.colour? v = some .White ∨ (t.colour? v = some .Black ∧ path_index + 1 ≠ response_codes.length)
  | none => ¬ ∃ u, response_codes[path_index]? = some 999 ∧
      t.follow ROOT (response_codes.tail.take (path_index - 1)) = some u ∧ t.colour? u = some .Black

/-- The length of the way to a node. -/
theorem Measured.depth_of_follow {t : MctsTree} (h : Measured t) (ht : Linked t) {x : List UInt32} {v : NodeId} {n : GNode}
    (hv : t.follow ROOT x = some v) (hn : t.nodes[v]? = some n) : n.data.depth = x.length + 1 := by
  induction x using List.reverseRecOn generalizing v n with
  | nil =>
    cases hv
    exact h.root hn
  | append_singleton x code ih =>
    obtain ⟨u, n', hu, hn', hparent, _⟩ := ht.follow_concat_spec hv
    rw [hn] at hn'
    cases hn'
    obtain ⟨m, hm⟩ := ht.follow_present hu
    rw [h.child hn hparent hm, ih hu hm, List.length_append, List.length_singleton]

section iteration

variable {q : queue_entry} {response_codes : List UInt32} {path_index : Nat} {code : UInt32} {s : Walk}

theorem Walk.appends_eq (s : Walk) (path_index len_codes : Nat) (code : UInt32) :
    s.appends path_index len_codes code = (s.new_node || (s.tree.child_with_id s.tree_node code).isNone) := by
  rw [Walk.appends, Walk.unmarked, (s.tree.unmark_same s.tree_node path_index len_codes).label.child_with_id]

/-- An iteration that appends nothing goes to a child of its node. -/
theorem Walk.next_of_not_appends {len_codes : Nat} (h : s.appends path_index len_codes code = false) :
    s.new_node = false ∧ s.tree.child_with_id s.tree_node code = some (s.next path_index len_codes code) := by
  have hnew := h
  rw [Walk.appends_eq] at hnew
  obtain ⟨hold, hfound⟩ := Bool.or_eq_false_iff.mp hnew
  obtain ⟨c, hc⟩ := Option.isSome_iff_exists.mp (Option.isNone_eq_false_iff.mp hfound)
  refine ⟨hold, ?_⟩
  rw [Walk.next, h, if_neg Bool.false_ne_true, Walk.unmarked,
    (s.tree.unmark_same s.tree_node path_index len_codes).label.child_with_id, hc, Option.getD_some]

/-- After an exact match a new node is White, and an old one unless it is a SimNode or a Black
node at the end of the response. -/
theorem Walk.dyed_white_iff (hmatched : (match_regions q response_codes path_index s.regions).matched_exactly = true) :
    (s.dyed q response_codes path_index code).colour? (s.next path_index response_codes.length code) = some .White ↔
      s.appends path_index response_codes.length code = true ∨
      s.tree.colour? (s.next path_index response_codes.length code) = some .White ∨
      (s.tree.colour? (s.next path_index response_codes.length code) = some .Black ∧ path_index + 1 ≠ response_codes.length) := by
  have hlabel := (s.tree.unmark_same s.tree_node path_index response_codes.length).label
  have hwhite : ∀ {t : MctsTree} {v : NodeId} (path : List UInt32), t.colour? v = some .Black →
      (t.dye v path).colour? v = some .White := by
    intro t v path hblack
    obtain ⟨n, hn, _⟩ := Option.map_eq_some_iff.mp hblack
    rw [MctsTree.colour?_eq (MctsTree.getElem?_dye_self hn path)]
  rw [Walk.dyed, hmatched]
  cases hnew : s.appends path_index response_codes.length code with
  | true =>
    have hblack : (s.grown response_codes path_index code).colour? (s.next path_index response_codes.length code) =
        some .Black := by
      rw [Walk.grown, Walk.next, hnew, if_pos rfl, if_pos rfl, MctsTree.colour?_eq (MctsTree.getElem?_add_new _ _ _)]
      rfl
    rw [if_pos ⟨rfl, hblack, Or.inl rfl⟩]
    exact iff_of_true (hwhite _ hblack) (Or.inl rfl)
  | false =>
    have hgrown : s.grown response_codes path_index code = s.tree.unmark s.tree_node path_index response_codes.length := by
      rw [Walk.grown, hnew, if_neg Bool.false_ne_true, Walk.unmarked]
    rw [hgrown, hlabel.colour?]
    split
    · rename_i hdye
      rw [hwhite _ ((hlabel.colour? _).trans hdye.2.1)]
      exact iff_of_true rfl (Or.inr (Or.inr ⟨hdye.2.1, hdye.2.2.resolve_left Bool.false_ne_true⟩))
    · rename_i hdye
      rw [hlabel.colour?]
      constructor
      · exact fun h => Or.inr (Or.inl h)
      · rintro (hfalse | h | h)
        · exact absurd hfalse Bool.false_ne_true
        · exact h
        · exact absurd ⟨rfl, h.1, Or.inr h.2⟩ hdye

/-- An iteration leaves every node alone but the one it starts from and the one it ends at. -/
theorem label_visit_of_ne {v : NodeId} {n : GNode} (hv : s.tree.nodes[v]? = some n) (hhere : v ≠ s.tree_node)
    (hnext : v ≠ s.next path_index response_codes.length code) :
    ∃ n', (visit q response_codes path_index code s).tree.nodes[v]? = some n' ∧ n'.label = n.label := by
  refine visit_of_grown (I := fun t => ∃ n', t.nodes[v]? = some n' ∧ n'.label = n.label) ?_ ?_ ?_
  · obtain ⟨n', hn', hsame⟩ := (s.tree.unmark_same s.tree_node path_index response_codes.length).label.exists_node hv
    rw [Walk.grown]
    split
    · exact ⟨n', MctsTree.getElem?_add_ne _ hn' (Ne.symm hhere), hsame⟩
    · exact ⟨n', hn', hsame⟩
  · rintro t ⟨n', hn', hsame⟩ _
    exact ⟨n', MctsTree.getElem?_dye_ne hn' (Ne.symm hnext) _, hsame⟩
  · rintro t u region_index ⟨n', hn', hsame⟩
    obtain ⟨n'', hn'', hsame'⟩ := (t.seed_label u q region_index).exists_node hn'
    exact ⟨n'', hn'', hsame'.trans hsame⟩

/-- An old node the walk steps on gets a SimNode if it is turned White, and is left alone otherwise. -/
theorem visit_of_old (hnew : s.appends path_index response_codes.length code = false) {n : GNode}
    (hn : s.tree.nodes[s.next path_index response_codes.length code]? = some n) :
    ∃ n', (visit q response_codes path_index code s).tree.nodes[s.next path_index response_codes.length code]? = some n' ∧
      if (match_regions q response_codes path_index s.regions).matched_exactly = true ∧ n.data.colour = .Black ∧
          path_index + 1 ≠ response_codes.length then
        ∃ g m, n'.children = n.children ++ [g] ∧ (visit q response_codes path_index code s).tree.nodes[g]? = some m ∧
          m.data.colour = .Golden ∧ m.data.id = 999 ∧ m.children = []
      else n'.label = n.label := by
  obtain ⟨n₁, hn₁, hsame⟩ := (s.tree.unmark_same s.tree_node path_index response_codes.length).label.exists_node hn
  have hlt := MctsTree.lt_of_getElem? hn₁
  have hgrown : s.grown response_codes path_index code = s.tree.unmark s.tree_node path_index response_codes.length := by
    rw [Walk.grown, hnew, if_neg Bool.false_ne_true, Walk.unmarked]
  have hcolour : (s.tree.unmark s.tree_node path_index response_codes.length).colour?
      (s.next path_index response_codes.length code) = some n.data.colour := by
    rw [MctsTree.colour?_eq hn₁, GNode.colour_of_label hsame]
  have hstored : MctsTree.SameBy GNode.label (s.dyed q response_codes path_index code)
      (visit q response_codes path_index code s).tree := by
    rw [visit_eq]
    dsimp only
    split
    · exact MctsTree.seed_matched_label _ _ _ _ _
    · exact MctsTree.SameBy.refl _
  simp only [Walk.dyed, hgrown, hcolour, hnew, Option.some.injEq, Bool.false_eq_true, false_or] at hstored
  split at hstored
  · rename_i hdye
    obtain ⟨n', hn', hsame'⟩ := hstored.exists_node (MctsTree.getElem?_dye_self hn₁ _)
    obtain ⟨m, hm, hsim⟩ := hstored.exists_node (MctsTree.getElem?_dye_new hlt _)
    refine ⟨n', hn', ?_⟩
    rw [if_pos hdye]
    refine ⟨_, m, (GNode.children_of_label hsame').trans ?_, hm, GNode.colour_of_label hsim, congrArg Label.id hsim,
      GNode.children_of_label hsim⟩
    rw [← GNode.children_of_label hsame]
  · rename_i hdye
    obtain ⟨n', hn', hsame'⟩ := hstored.exists_node hn₁
    refine ⟨n', hn', ?_⟩
    rw [if_neg hdye]
    exact hsame'.trans hsame

end iteration

/-- The walk stands at a node of `t`, whose children are those in `t` and, if the walk has just
turned it White, a new SimNode without children. -/
def Walk.OnOldNode (t : MctsTree) (s : Walk) : Prop :=
  ∃ n n' more, t.nodes[s.tree_node]? = some n ∧ s.tree.nodes[s.tree_node]? = some n' ∧ n'.children = n.children ++ more ∧
    if s.regions.matched_exactly = true ∧ n.data.colour = .Black then
      ∃ g m, more = [g] ∧ s.tree.nodes[g]? = some m ∧ m.data.colour = .Golden ∧ m.data.id = 999 ∧ m.children = []
    else more = []

/-- How a walk through `t` gets along, whatever codes it reads: deeper nodes of `t` are untouched;
a walk that appends nodes has left `t`, and any other one stands at a node of `t`, or else at
the new SimNode of such a node, which the code 999 has led it to. -/
structure Walk.Along (t : MctsTree) (q : queue_entry) (response_codes : List UInt32) (depth : Nat) (s : Walk) :
    Prop where
  measured : s.Measured q depth
  stands : s.regions.Stands q response_codes depth
  grows : t.Grows s.tree
  untouched : ∀ (v : NodeId) (n : GNode), t.nodes[v]? = some n → depth < n.data.depth →
    ∃ n', s.tree.nodes[v]? = some n' ∧ n'.label = n.label
  left : s.new_node = true → t.follow ROOT (response_codes.tail.take (depth - 1)) = none
  here : s.new_node = false → depth < response_codes.length →
    (t.follow ROOT (response_codes.tail.take (depth - 1)) = some s.tree_node ∧ s.OnOldNode t) ∨
    (t.follow ROOT (response_codes.tail.take (depth - 1)) = none ∧
      ∃ m, s.tree.nodes[s.tree_node]? = some m ∧ m.data.colour = .Golden ∧ m.children = [])

namespace Walk.Along

variable {t : MctsTree} {q : queue_entry} {response_codes : List UInt32} {depth : Nat} {code : UInt32} {s : Walk}

theorem start (h : mcts.Measured t) (ht : Linked t) (hregions : 0 < q.region_count) (response_codes : List UInt32) :
    (Walk.start (t.seed ROOT q 0) ROOT).Along t q response_codes 1 where
  measured := .start h ht hregions
  stands := .start
  grows := .seed t ROOT q 0
  untouched := fun v n hv _ => (t.seed_label ROOT q 0).exists_node hv
  left := nofun
  here := by
    intro _ _
    obtain ⟨r, hr, _⟩ := ht.root
    obtain ⟨r', hr', hsame⟩ := (t.seed_label ROOT q 0).exists_node hr
    refine Or.inl ⟨rfl, r, r', [], hr, hr', by rw [List.append_nil, GNode.children_of_label hsame], ?_⟩
    rw [if_neg fun hboth => Bool.false_ne_true hboth.1]

/-- Following one code more is following all of them but the last one and then one step. -/
theorem follow_next (t : MctsTree) (hdepth : 1 ≤ depth) (hcode : response_codes[depth]? = some code) :
    t.follow ROOT (response_codes.tail.take depth) =
      (t.follow ROOT (response_codes.tail.take (depth - 1))).bind fun u => t.child_with_id u code := by
  have hget : response_codes.tail[depth - 1]? = some code := by
    rw [List.getElem?_tail, Nat.sub_add_cancel hdepth, hcode]
  rw [← MctsTree.follow_concat, ← take_succ_of_getElem? hget, Nat.sub_add_cancel hdepth]

/-- Where the next iteration leads: out of `t`, to the next node of `t`, or to a new SimNode. -/
theorem step (h : s.Along t q response_codes depth) (ht : Linked t) (hdepth : 1 ≤ depth)
    (hcode : response_codes[depth]? = some code) :
    (s.appends depth response_codes.length code = true ∧ t.follow ROOT (response_codes.tail.take depth) = none ∧
      ¬ (s.regions.matched_exactly = true ∧ code = 999 ∧
        ∃ u, t.follow ROOT (response_codes.tail.take (depth - 1)) = some u ∧ t.colour? u = some .Black)) ∨
    (s.appends depth response_codes.length code = false ∧
      t.follow ROOT (response_codes.tail.take depth) = some (s.next depth response_codes.length code)) ∨
    (s.appends depth response_codes.length code = false ∧ t.follow ROOT (response_codes.tail.take depth) = none ∧
      (s.regions.matched_exactly = true ∧ code = 999 ∧
        ∃ u, t.follow ROOT (response_codes.tail.take (depth - 1)) = some u ∧ t.colour? u = some .Black) ∧
      ∃ m, s.tree.nodes[s.next depth response_codes.length code]? = some m ∧ m.data.colour = .Golden ∧ m.children = []) := by
  have hlt := (List.getElem?_eq_some_iff.mp hcode).1
  have happends := s.appends_eq depth response_codes.length code
  rw [follow_next t hdepth hcode]
  cases hold : s.new_node with
  | true =>
    rw [hold, Bool.true_or] at happends
    rw [h.left hold]
    exact Or.inl ⟨happends, rfl, fun hall => by simpa using hall.2.2⟩
  | false =>
    rw [hold, Bool.false_or] at happends
    rcases h.here hold hlt with ⟨hfollow, n, n', more, hn, hn', hchildren, hmore⟩ | ⟨hfollow, m, hm, _, hnone⟩
    · rw [hfollow, Option.bind_some]
      have hchild := h.grows.child_with_id_eq ht hn hn' hchildren code
      cases hc : t.child_with_id s.tree_node code with
      | some c =>
        rw [hc, Option.some_or] at hchild
        rw [hchild, Option.isNone_some] at happends
        have hnext := (Walk.next_of_not_appends happends).2
        rw [hchild] at hnext
        exact Or.inr (Or.inl ⟨happends, hnext⟩)
      | none =>
        rw [hc, Option.none_or] at hchild
        split at hmore
        · rename_i hdyed
          obtain ⟨g, m, rfl, hm, hgolden, hid, hleaf⟩ := hmore
          rw [List.find?_cons, hm, Option.any_some, hid] at hchild
          by_cases h999 : code = 999
          · subst h999
            rw [decide_eq_true rfl] at hchild
            rw [hchild, Option.isNone_some] at happends
            have hnext := (Walk.next_of_not_appends happends).2
            rw [hchild] at hnext
            obtain rfl := Option.some.inj hnext
            exact Or.inr (Or.inr ⟨happends, rfl, ⟨hdyed.1, rfl, s.tree_node, rfl, by
              rw [MctsTree.colour?_eq hn, hdyed.2]⟩, m, hm, hgolden, hleaf⟩)
          · rw [decide_eq_false (Ne.symm h999), List.find?_nil] at hchild
            rw [hchild, Option.isNone_none] at happends
            exact Or.inl ⟨happends, rfl, fun hall => h999 hall.2.1⟩
        · rename_i hplain
          rw [hmore, List.find?_nil] at hchild
          rw [hchild, Option.isNone_none] at happends
          refine Or.inl ⟨happends, rfl, ?_⟩
          rintro ⟨hmatched, _, u, hu, hblack⟩
          cases hu
          rw [MctsTree.colour?_eq hn] at hblack
          exact hplain ⟨hmatched, Option.some.inj hblack⟩
    · have hchild : s.tree.child_with_id s.tree_node code = none := by
        rw [MctsTree.child_with_id, hm, Option.bind_some, hnone, List.find?_nil]
      rw [hchild, Option.isNone_none] at happends
      rw [hfollow]
      exact Or.inl ⟨happends, rfl, fun hall => by simpa using hall.2.2⟩

/-- One iteration gets along. It needs no assumption on the codes, as a code 999 is followed
like any other one. -/
protected theorem visit (h : s.Along t q response_codes depth) (hm : mcts.Measured t) (ht : Linked t) (hdepth : 1 ≤ depth)
    (hcode : response_codes[depth]? = some code) :
    (visit q response_codes depth code s).Along t q response_codes (depth + 1) := by
  have hnode : (mcts.visit q response_codes depth code s).tree_node = s.next depth response_codes.length code := by
    rw [visit_eq]
  have hflag : (mcts.visit q response_codes depth code s).new_node = s.appends depth response_codes.length code := by
    rw [visit_eq]
  have hregions : (mcts.visit q response_codes depth code s).regions = match_regions q response_codes depth s.regions := by
    rw [visit_eq]
  have hstep := h.step ht hdepth hcode
  refine ⟨h.measured.visit hcode, ?_, h.grows.trans grows_visit, ?_, ?_, ?_⟩
  · rw [hregions]
    exact h.stands.match_regions hdepth
  · intro v n hv hdeep
    obtain ⟨n', hn', hsame⟩ := h.untouched v n hv (Nat.lt_of_succ_lt hdeep)
    rw [← GNode.depth_of_label hsame] at hdeep
    have hhere : v ≠ s.tree_node := by
      rintro rfl
      rw [h.measured.here n' hn'] at hdeep
      omega
    have hnext : v ≠ s.next depth response_codes.length code := by
      rintro rfl
      cases hnew : s.appends depth response_codes.length code with
      | true =>
        have hlt := MctsTree.lt_of_getElem? hn'
        rw [Walk.next, hnew, if_pos rfl, Walk.unmarked, (h.measured.ready.unmark depth response_codes.length).2.1] at hlt
        exact Nat.lt_irrefl _ hlt
      | false =>
        obtain ⟨p, hp⟩ := MctsTree.getElem?_of_lt h.measured.ready.present
        obtain ⟨_, m, hm', hparent, _⟩ := h.measured.ready.linked.child_with_id_spec hp (Walk.next_of_not_appends hnew).2
        rw [hn'] at hm'
        cases hm'
        rw [h.measured.measured.child hn' hparent hp, h.measured.here p hp] at hdeep
        omega
    obtain ⟨n'', hn'', hsame'⟩ := label_visit_of_ne hn' hhere hnext
    exact ⟨n'', hn'', hsame'.trans hsame⟩
  · intro hnew
    rw [hflag] at hnew
    rcases hstep with ⟨_, hnone, _⟩ | ⟨hold, _⟩ | ⟨hold, _⟩
    · exact hnone
    · rw [hnew] at hold
      cases hold
    · rw [hnew] at hold
      cases hold
  · intro hold hlt
    rw [hflag] at hold
    rw [hnode, Nat.add_sub_cancel]
    rcases hstep with ⟨hnew, _⟩ | ⟨_, hfollow⟩ | ⟨_, hnone, _, m, hm', hgolden, hleaf⟩
    · rw [hold] at hnew
      cases hnew
    · left
      obtain ⟨n, hn⟩ := ht.follow_present hfollow
      have hdeep : depth < n.data.depth := by
        rw [hm.depth_of_follow ht hfollow hn, List.length_take, List.length_tail]
        omega
      obtain ⟨n₁, hn₁, hsame⟩ := h.untouched _ n hn hdeep
      obtain ⟨n', hn', hdyed⟩ := visit_of_old (q := q) hold hn₁
      refine ⟨hfollow, ?_⟩
      rw [Walk.OnOldNode, hnode, hregions]
      have hinner : depth + 1 ≠ response_codes.length := Nat.ne_of_lt hlt
      simp only [hinner, ne_eq, not_false_eq_true, and_true, GNode.colour_of_label hsame, GNode.children_of_label hsame] at hdyed
      split at hdyed
      · rename_i hdye
        obtain ⟨g, m, hchildren, hrest⟩ := hdyed
        refine ⟨n, n', [g], hn, hn', hchildren, ?_⟩
        rw [if_pos hdye]
        exact ⟨g, m, rfl, hrest⟩
      · rename_i hdye
        refine ⟨n, n', [], hn, hn', ?_, ?_⟩
        · rw [List.append_nil, GNode.children_of_label hdyed, GNode.children_of_label hsame]
        · rw [if_neg hdye]
    · right
      obtain ⟨n', hn', hkept⟩ := visit_of_old (q := q) hold hm'
      rw [if_neg fun hall => by rw [hgolden] at hall; cases hall.2.1] at hkept
      exact ⟨hnone, n', hn', (GNode.colour_of_label hkept).trans hgolden, (GNode.children_of_label hkept).trans hleaf⟩

/-- An iteration that still has a match stores a seed exactly where `TakesSeed` says. -/
theorem white_iff (h : s.Along t q response_codes depth) (hm : mcts.Measured t) (ht : Linked t) (hdepth : 1 ≤ depth)
    (hcode : response_codes[depth]? = some code) (hbefore : s.regions.matched_exactly = true)
    (hmatched : (match_regions q response_codes depth s.regions).matched_exactly = true) :
    (s.dyed q response_codes depth code).colour? (s.next depth response_codes.length code) = some .White ↔
      t.TakesSeed response_codes depth := by
  rw [Walk.dyed_white_iff hmatched, MctsTree.TakesSeed, hcode]
  rcases h.step ht hdepth hcode with ⟨hnew, hnone, hno⟩ | ⟨hold, hfollow⟩ | ⟨hold, hnone, hsim, m, hm', hgolden, _⟩
  · rw [hnone]
    refine iff_of_true (Or.inl hnew) ?_
    rintro ⟨u, h999, hu, hblack⟩
    exact hno ⟨hbefore, Option.some.inj h999, u, hu, hblack⟩
  · obtain ⟨n, hn⟩ := ht.follow_present hfollow
    have hdeep : depth < n.data.depth := by
      have hlt := (List.getElem?_eq_some_iff.mp hcode).1
      rw [hm.depth_of_follow ht hfollow hn, List.length_take, List.length_tail]
      omega
    obtain ⟨n', hn', hsame⟩ := h.untouched _ n hn hdeep
    rw [hfollow, hold]
    dsimp only
    rw [MctsTree.colour?_eq hn, MctsTree.colour?_eq hn', GNode.colour_of_label hsame]
    simp only [Bool.false_eq_true, false_or]
  · rw [hnone, hold, MctsTree.colour?_eq hm', hgolden]
    obtain ⟨_, rfl, u, hu, hblack⟩ := hsim
    refine iff_of_false (by simp) fun hno => hno ⟨u, rfl, hu, hblack⟩

end Walk.Along

end aflnet.mcts
