import Mathlib.Data.List.Induction
import AflnetLegion.Mcts.Shape

open Checked

namespace aflnet.mcts

namespace Walk

/-- An iteration of the second round first clears a flag. -/
def unmarked (s : Walk) (path_index len_codes : Nat) : MctsTree := s.tree.unmark s.tree_node path_index len_codes

/-- Whether the iteration appends a node. -/
def appends (s : Walk) (path_index len_codes : Nat) (code : UInt32) : Bool :=
  s.new_node || ((s.unmarked path_index len_codes).child_with_id s.tree_node code).isNone

/-- The node the iteration ends at: the child with the code, or the node that is appended for
it. -/
def next (s : Walk) (path_index len_codes : Nat) (code : UInt32) : NodeId :=
  if s.appends path_index len_codes code then (s.unmarked path_index len_codes).nodes.length
  else ((s.unmarked path_index len_codes).child_with_id s.tree_node code).getD s.tree_node

/-- The tree after the iteration has appended a Black node, if it does. It is dyed after that,
if a region matches exactly. -/
def grown (s : Walk) (response_codes : List UInt32) (path_index : Nat) (code : UInt32) : MctsTree :=
  if s.appends path_index response_codes.length code then
    (s.unmarked path_index response_codes.length).add s.tree_node
      (.fresh code .Black (response_codes.take (path_index + 1)))
  else s.unmarked path_index response_codes.length

/-- The tree after the iteration has turned its node White, if it does: a new node
on every exact match, an old one only as an interior node. -/
def dyed (s : Walk) (q : queue_entry) (response_codes : List UInt32) (path_index : Nat) (code : UInt32) : MctsTree :=
  if (match_regions q response_codes path_index s.regions).matched_exactly = true ∧
      (s.grown response_codes path_index code).colour? (s.next path_index response_codes.length code) = some .Black ∧
      (s.appends path_index response_codes.length code = true ∨ path_index + 1 ≠ response_codes.length)
  then (s.grown response_codes path_index code).dye (s.next path_index response_codes.length code)
    (response_codes.take (path_index + 1))
  else s.grown response_codes path_index code

end Walk

/-- After an exact match the node an iteration ends at is dyed, be it new or old. -/
theorem Walk.flip_eq_dyed {q : queue_entry} {response_codes : List UInt32} {path_index : Nat} {s : Walk}
    (hmatched : (match_regions q response_codes path_index s.regions).matched_exactly = true) (code : UInt32) :
    (if s.appends path_index response_codes.length code
      then (s.unmarked path_index response_codes.length).append s.tree_node code
        (match_regions q response_codes path_index s.regions).matched_exactly (response_codes.take (path_index + 1))
      else s.unmarked path_index response_codes.length).flip (s.next path_index response_codes.length code)
        response_codes path_index = s.dyed q response_codes path_index code := by
  rw [Walk.dyed, Walk.grown, hmatched]
  cases hnew : s.appends path_index response_codes.length code with
  | false => simp [MctsTree.flip]
  | true =>
    have hv : s.next path_index response_codes.length code = (s.unmarked path_index response_codes.length).nodes.length := by
      rw [Walk.next, if_pos hnew]
    generalize s.unmarked path_index response_codes.length = t at hv ⊢
    rw [hv]
    generalize response_codes.take (path_index + 1) = path
    have hblack : (t.add s.tree_node (.fresh code .Black path)).colour? t.nodes.length = some .Black := by
      rw [MctsTree.colour?_eq (MctsTree.getElem?_add_new _ _ _)]
      rfl
    have hwhite : ((t.add s.tree_node (.fresh code .Black path)).dye t.nodes.length path).colour? t.nodes.length =
        some .White := by
      rw [MctsTree.colour?_eq (MctsTree.getElem?_dye_self (MctsTree.getElem?_add_new _ _ _) _)]
    simp only [MctsTree.flip, MctsTree.append, if_true, true_or, and_true, hblack, hwhite, Option.some.injEq,
      reduceCtorEq, false_and, if_false]

/-- One iteration of the second round edits the tree at most four times: it clears
a flag, appends a Black node, turns the node White, and stores a seed. -/
theorem visit_eq (q : queue_entry) (response_codes : List UInt32) (path_index : Nat) (code : UInt32) (s : Walk) :
    visit q response_codes path_index code s =
      { tree := if (match_regions q response_codes path_index s.regions).matched_exactly = true then
          (s.dyed q response_codes path_index code).seed_matched (s.next path_index response_codes.length code) q
            response_codes (match_regions q response_codes path_index s.regions).matching_region_index
          else s.dyed q response_codes path_index code
        tree_node := s.next path_index response_codes.length code
        new_node := s.appends path_index response_codes.length code
        regions := match_regions q response_codes path_index s.regions } := by
  have hvisit : visit q response_codes path_index code s =
      { tree := (if s.appends path_index response_codes.length code
          then (s.unmarked path_index response_codes.length).append s.tree_node code
            (match_regions q response_codes path_index s.regions).matched_exactly (response_codes.take (path_index + 1))
          else s.unmarked path_index response_codes.length).dye_and_seed (s.next path_index response_codes.length code)
            q response_codes path_index (match_regions q response_codes path_index s.regions)
        tree_node := s.next path_index response_codes.length code
        new_node := s.appends path_index response_codes.length code
        regions := match_regions q response_codes path_index s.regions } := rfl
  rw [hvisit, MctsTree.dye_and_seed]
  congr 1
  by_cases hmatched : (match_regions q response_codes path_index s.regions).matched_exactly = true
  · rw [if_pos hmatched, if_pos hmatched, Walk.flip_eq_dyed hmatched]
  · simp [Walk.dyed, Walk.grown, hmatched, MctsTree.append]

section edits

variable {q : queue_entry} {response_codes : List UInt32} {path_index : Nat} {code : UInt32} {s : Walk}
  {I : MctsTree → Prop}

/-- What holds once an iteration has found or appended its node, and is kept by turning
the node White, holds then. -/
theorem Walk.dyed_of_grown (hgrown : I (s.grown response_codes path_index code))
    (hdye : ∀ {t : MctsTree}, I t → t.colour? (s.next path_index response_codes.length code) = some .Black →
      I (t.dye (s.next path_index response_codes.length code) (response_codes.take (path_index + 1)))) :
    I (s.dyed q response_codes path_index code) := by
  rw [Walk.dyed]
  split
  · rename_i hyes
    exact hdye hgrown hyes.2.1
  · exact hgrown

/-- What an iteration does after it has found or appended its node keeps what turning
the node White and storing a seed keep. -/
theorem visit_of_grown (hgrown : I (s.grown response_codes path_index code))
    (hdye : ∀ {t : MctsTree}, I t → t.colour? (s.next path_index response_codes.length code) = some .Black →
      I (t.dye (s.next path_index response_codes.length code) (response_codes.take (path_index + 1))))
    (hseed : ∀ {t : MctsTree} (v : NodeId) (region_index : Nat), I t → I (t.seed v q region_index)) :
    I (visit q response_codes path_index code s).tree := by
  have hdyed : I (s.dyed q response_codes path_index code) := Walk.dyed_of_grown hgrown hdye
  rw [visit_eq]
  dsimp only
  split
  · rw [MctsTree.seed_matched]
    split
    · exact hseed _ _ hdyed
    · exact hdyed
  · exact hdyed

end edits

/-- Clearing the flag keeps everything but the flag. -/
theorem MctsTree.unmark_same (t : MctsTree) (v : NodeId) (path_index len_codes : Nat) :
    SameBy GNode.skeleton t (t.unmark v path_index len_codes) := by
  rw [MctsTree.unmark]
  split
  · intro u
    rw [MctsTree.getElem?_modify]
    cases t.nodes[u]? with
    | none => rfl
    | some n => by_cases hvu : v = u <;> simp [hvu, GNode.skeleton, GNode.links]
  · exact SameBy.refl t

theorem MctsTree.seed_label (t : MctsTree) (v : NodeId) (q : queue_entry) (region_index : Nat) :
    SameBy GNode.label t (t.seed v q region_index) := by
  rw [MctsTree.seed]
  split
  · intro u
    rw [MctsTree.getElem?_modify]
    cases t.nodes[u]? with
    | none => rfl
    | some n => rename_i s _; by_cases hsu : s = u <;> simp [hsu, GNode.label, GNode.links, TreeNodeData.with_seed]
  · exact SameBy.refl t

theorem MctsTree.seed_matched_label (t : MctsTree) (v : NodeId) (q : queue_entry) (response_codes : List UInt32)
    (region_index : Nat) : SameBy GNode.label t (t.seed_matched v q response_codes region_index) := by
  rw [MctsTree.seed_matched]
  split
  · exact t.seed_label v q region_index
  · exact SameBy.refl t

namespace MctsTree.At

variable {t t' : MctsTree} {v : NodeId} {x : List UInt32}

/-- The path of a node depends on links, ids, colours and paths only. -/
theorem of_label (h : t.At v x) (hsame : SameBy GNode.label t t') : t'.At v x := by
  obtain ⟨n, hn, hcolour, hpath⟩ := h
  obtain ⟨n', hn', heq⟩ := hsame.exists_node hn
  refine ⟨n', hn', ?_, (GNode.path_of_label heq).trans hpath⟩
  rw [GNode.colour_of_label heq]
  exact hcolour

theorem add (h : t.At v x) (u : NodeId) (d : TreeNodeData) : (t.add u d).At v x := by
  obtain ⟨n, hn, hcolour, hpath⟩ := h
  by_cases huv : u = v
  · subst huv
    exact ⟨_, getElem?_add_parent d hn, hcolour, hpath⟩
  · exact ⟨n, getElem?_add_ne d hn huv, hcolour, hpath⟩

theorem dye (h : t.At v x) (u : NodeId) (path : List UInt32) : (t.dye u path).At v x := by
  obtain ⟨n, hn, hcolour, hpath⟩ := h
  by_cases huv : u = v
  · subst huv
    exact ⟨_, getElem?_dye_self hn path, by simp, hpath⟩
  · exact ⟨n, getElem?_dye_ne hn huv path, hcolour, hpath⟩

end MctsTree.At

namespace Shape

variable {t : MctsTree} {v u c : NodeId} {x y : List UInt32} {code : UInt32}

/-- Above every response node but the root there is the node of its path without the last code,
and the last code is not 999. -/
theorem at_parent (h : Shape t) (hv : t.At v x) (hne : v ≠ ROOT) :
    ∃ u n y, t.nodes[v]? = some n ∧ n.parent = some u ∧ t.At u y ∧ x = y ++ [n.data.id] ∧ n.data.id ≠ 999 := by
  obtain ⟨n, hn, hcolour, rfl⟩ := hv
  obtain ⟨h999, u, m, hparent, hm, hpath⟩ := h.response hn hcolour hne
  exact ⟨u, n, m.data.path, hn, hparent, ⟨m, hm, h.parent_not_golden hn hparent hm, rfl⟩, hpath, h999⟩

theorem at_root_iff (h : Shape t) : t.At ROOT x ↔ x = [0] := by
  obtain ⟨r, hr, hcolour, hpath⟩ := h.at_root
  constructor
  · rintro ⟨r', hr', _, rfl⟩
    rw [hr] at hr'
    cases hr'
    exact hpath
  · rintro rfl
    exact h.at_root

theorem ne_nil_of_at (h : Shape t) (hv : t.At v x) : x ≠ [] := by
  by_cases hroot : v = ROOT
  · subst hroot
    rw [h.at_root_iff.mp hv]
    simp
  · obtain ⟨_, _, _, _, _, _, rfl, _⟩ := h.at_parent hv hroot
    simp

/-- The path of a response child. -/
theorem parent_at_of_child (h : Shape t) {n m : GNode} (hc : t.nodes[c]? = some m) (hparent : m.parent = some v)
    (hresponse : m.data.colour ≠ .Golden) (hv : t.nodes[v]? = some n) : t.At c (n.data.path ++ [m.data.id]) := by
  obtain ⟨_, u, k, hu, hk, hpath⟩ := h.response hc hresponse (h.ne_root_of_parent hc hparent)
  rw [hparent] at hu
  cases hu
  rw [hv] at hk
  cases hk
  exact ⟨m, hc, hresponse, hpath⟩

/-- No two nodes have the same path. -/
theorem at_unique (h : Shape t) (hv : t.At v x) (hu : t.At u x) : v = u := by
  induction x using List.reverseRecOn generalizing v u with
  | nil => exact absurd rfl (h.ne_nil_of_at hv)
  | append_singleton y code ih =>
    have hroot : ∀ {w : NodeId}, t.At w (y ++ [code]) → w ≠ ROOT → y ≠ [] := by
      intro w hw hne
      obtain ⟨_, _, _, _, _, hparent, heq, _⟩ := h.at_parent hw hne
      obtain ⟨rfl, _⟩ := List.append_singleton_inj.mp heq
      exact h.ne_nil_of_at hparent
    have hnil : t.At ROOT (y ++ [code]) → y = [] := by
      intro hat
      have heq : y ++ [code] = [] ++ [0] := h.at_root_iff.mp hat
      exact (List.append_singleton_inj.mp heq).1
    by_cases hv0 : v = ROOT <;> by_cases hu0 : u = ROOT
    · rw [hv0, hu0]
    · subst hv0
      exact absurd (hnil hv) (hroot hu hu0)
    · subst hu0
      exact absurd (hnil hu) (hroot hv hv0)
    · obtain ⟨p, n, _, hn, hp, hatp, heq, _⟩ := h.at_parent hv hv0
      obtain ⟨p', m, _, hm, hp', hatp', heq', _⟩ := h.at_parent hu hu0
      obtain ⟨rfl, hid⟩ := List.append_singleton_inj.mp heq
      obtain ⟨rfl, hid'⟩ := List.append_singleton_inj.mp heq'
      have hsame := ih hatp hatp'
      subst hsame
      exact h.distinct hn hm (by rw [hp, hp']) (by rw [← hid, ← hid'])

/-- Below a node with path `x`, a child found by its code is the node with path
`x` and that code. -/
theorem child_with_id_iff (h : Shape t) (hv : t.At v x) (hcode : code ≠ 999) :
    t.child_with_id v code = some c ↔ t.At c (x ++ [code]) := by
  obtain ⟨n, hn, hcolour, hpath⟩ := hv
  constructor
  · intro hc
    obtain ⟨_, m, hm, hparent, hid⟩ := h.child_with_id_spec hn hc
    have hresponse : m.data.colour ≠ .Golden := fun hgolden => hcode (hid ▸ (h.golden hm hgolden).2.1)
    rw [← hpath, ← hid]
    exact h.parent_at_of_child hm hparent hresponse hn
  · intro hc
    have hne : c ≠ ROOT := by
      rintro rfl
      have heq : x ++ [code] = [] ++ [0] := h.at_root_iff.mp hc
      exact h.ne_nil_of_at ⟨n, hn, hcolour, hpath⟩ (List.append_singleton_inj.mp heq).1
    obtain ⟨u, m, y, hm, hparent, hat, heq, _⟩ := h.at_parent hc hne
    obtain ⟨rfl, hid⟩ := List.append_singleton_inj.mp heq
    have huv := h.at_unique ⟨n, hn, hcolour, hpath⟩ hat
    subst huv
    obtain ⟨u', n', hu', _, hn', hmem⟩ := h.parent hm hne
    rw [hparent] at hu'
    cases hu'
    rw [hn] at hn'
    cases hn'
    have hsome : (t.child_with_id v code).isSome := by
      rw [MctsTree.child_with_id, hn, Option.bind_some, List.find?_isSome]
      exact ⟨c, hmem, by simp [hm, hid]⟩
    obtain ⟨c', hc'⟩ := Option.isSome_iff_exists.mp hsome
    obtain ⟨_, m', hm', hparent', hid'⟩ := h.child_with_id_spec hn hc'
    rw [hc', h.distinct hm' hm (by rw [hparent', hparent]) (by rw [hid', hid])]

/-- No child is found exactly if the tree has no node for the longer path. -/
theorem child_with_id_eq_none_iff (h : Shape t) (hv : t.At v x) (hcode : code ≠ 999) :
    t.child_with_id v code = none ↔ ∀ c, ¬ t.At c (x ++ [code]) := by
  rw [Option.eq_none_iff_forall_ne_some]
  exact forall_congr' fun c => not_congr (h.child_with_id_iff hv hcode)

end Shape

theorem MctsTree.At.lt {t : MctsTree} {v : NodeId} {x : List UInt32} (h : t.At v x) : v < t.nodes.length := by
  obtain ⟨n, hn, _⟩ := h
  exact MctsTree.lt_of_getElem? hn

theorem Shape.dye_at {t : MctsTree} (h : Shape t) {v : NodeId} {x : List UInt32} (hv : t.At v x)
    (hblack : t.colour? v = some .Black) : Shape (t.dye v x) := by
  obtain ⟨n, hn, _, rfl⟩ := hv
  rw [MctsTree.colour?_eq hn] at hblack
  exact h.dye hn (Option.some.inj hblack)

/-- Between two iterations of the second round the walk stands at the node of the
codes read so far. A node it appended has no response child yet. -/
structure Walk.Sound (q : queue_entry) (response_codes : List UInt32) (path_index : Nat) (s : Walk) : Prop where
  ready : s.Ready q
  shape : Shape s.tree
  here : s.tree.At s.tree_node (response_codes.take path_index)
  fresh : s.new_node = true → ∀ c code, ¬ s.tree.At c (response_codes.take path_index ++ [code])

theorem take_succ_of_getElem? {codes : List UInt32} {i : Nat} {code : UInt32} (h : codes[i]? = some code) :
    codes.take (i + 1) = codes.take i ++ [code] := by
  rw [List.take_add_one, h]
  rfl

namespace Walk.Sound

variable {q : queue_entry} {response_codes : List UInt32} {path_index : Nat} {code : UInt32} {s : Walk}

/-- The iteration appends a node exactly when the tree has none for the next prefix. -/
theorem grow (h : s.Sound q response_codes path_index) (hcode : response_codes[path_index]? = some code)
    (h999 : code ≠ 999) :
    (s.appends path_index response_codes.length code = true ↔
      ∀ c, ¬ s.tree.At c (response_codes.take (path_index + 1))) ∧
    Shape (s.grown response_codes path_index code) ∧
    (s.grown response_codes path_index code).At (s.next path_index response_codes.length code)
      (response_codes.take (path_index + 1)) := by
  have hlabel := (s.tree.unmark_same s.tree_node path_index response_codes.length).label
  rw [Walk.grown, Walk.next]
  have happends : s.appends path_index response_codes.length code =
      (s.new_node || ((s.unmarked path_index response_codes.length).child_with_id s.tree_node code).isNone) := rfl
  have hat : ∀ {c : NodeId} {x : List UInt32}, (s.unmarked path_index response_codes.length).At c x ↔ s.tree.At c x :=
    ⟨fun hc => hc.of_label hlabel.symm, fun hc => hc.of_label hlabel⟩
  have hshape : Shape (s.unmarked path_index response_codes.length) := h.shape.of_label hlabel
  generalize s.unmarked path_index response_codes.length = t at happends hat hshape ⊢
  generalize s.appends path_index response_codes.length code = is_new at happends ⊢
  have hiff : ∀ {c : NodeId}, t.child_with_id s.tree_node code = some c ↔
      t.At c (response_codes.take path_index ++ [code]) := hshape.child_with_id_iff (hat.mpr h.here) h999
  rw [take_succ_of_getElem? hcode]
  have hnew : is_new = true ↔ ∀ c, ¬ s.tree.At c (response_codes.take path_index ++ [code]) := by
    rw [happends, Bool.or_eq_true, Option.isNone_iff_eq_none,
      hshape.child_with_id_eq_none_iff (hat.mpr h.here) h999]
    constructor
    · rintro (hfresh | hnone) c hc
      · exact h.fresh hfresh c code hc
      · exact hnone c (hat.mpr hc)
    · intro hnone
      exact Or.inr fun c hc => hnone c (hat.mp hc)
  refine ⟨hnew, ?_⟩
  cases is_new with
  | false =>
    obtain ⟨_, hsome⟩ := Bool.or_eq_false_iff.mp happends.symm
    obtain ⟨c, hc⟩ := Option.isSome_iff_exists.mp (Option.isNone_eq_false_iff.mp hsome)
    rw [hc]
    exact ⟨hshape, hiff.mp hc⟩
  | true =>
    refine ⟨?_, _, MctsTree.getElem?_add_new _ _ _, by simp [TreeNodeData.fresh], rfl⟩
    obtain ⟨n, hn, hcolour, hpath⟩ := hat.mpr h.here
    rw [← hpath]
    apply hshape.add_black hn hcolour h999
    intro c m hc hparent hid
    have hchild := hshape.parent_at_of_child hc hparent (fun hgolden => h999 (hid ▸ (hshape.golden hc hgolden).2.1)) hn
    rw [hpath, hid] at hchild
    exact hnew.mp rfl c (hat.mp hchild)

/-- After the iteration has found or appended its node and perhaps turned it White, the tree has
the right shape, and the node has the path that was walked. -/
theorem dyed_at (h : s.Sound q response_codes path_index) (hcode : response_codes[path_index]? = some code)
    (h999 : code ≠ 999) : Shape (s.dyed q response_codes path_index code) ∧
    (s.dyed q response_codes path_index code).At (s.next path_index response_codes.length code)
      (response_codes.take (path_index + 1)) := by
  obtain ⟨_, hshape, hat⟩ := h.grow hcode h999
  rw [Walk.dyed]
  split
  · rename_i hyes
    exact ⟨hshape.dye_at hat hyes.2.1, hat.dye _ _⟩
  · exact ⟨hshape, hat⟩

/-- What an iteration makes of the tree after it has cleared a flag. -/
theorem edits_rule (h : s.Sound q response_codes path_index) (hcode : response_codes[path_index]? = some code)
    (h999 : code ≠ 999) {I : MctsTree → Prop} (hstart : I (s.unmarked path_index response_codes.length))
    (hblack : ∀ {t : MctsTree}, Shape t → I t → t.At s.tree_node (response_codes.take path_index) →
      (∀ c, ¬ t.At c (response_codes.take (path_index + 1))) →
      I (t.add s.tree_node (.fresh code .Black (response_codes.take (path_index + 1)))))
    (hdye : ∀ {t : MctsTree} {v : NodeId}, Shape t → I t → t.At v (response_codes.take (path_index + 1)) →
      t.colour? v = some .Black → ((∀ c, ¬ s.tree.At c (response_codes.take (path_index + 1))) ∨
        path_index + 1 ≠ response_codes.length) → I (t.dye v (response_codes.take (path_index + 1))))
    (hseed : ∀ {t : MctsTree} {v : NodeId}, Shape t → I t →
      t.At v (response_codes.take (path_index + 1)) → t.colour? v = some .White →
      (match_regions q response_codes path_index s.regions).matched_exactly = true →
      (q.regions[(match_regions q response_codes path_index s.regions).matching_region_index]?.any
        fun r => r.state_count < response_codes.length) →
      I (t.seed v q (match_regions q response_codes path_index s.regions).matching_region_index)) :
    I (visit q response_codes path_index code s).tree := by
  have hsame := s.tree.unmark_same s.tree_node path_index response_codes.length
  obtain ⟨hnew, hshape, hat⟩ := h.grow hcode h999
  have hgrown : I (s.grown response_codes path_index code) := by
    rw [Walk.grown]
    split
    · rename_i hyes
      exact hblack (h.shape.of_label hsame.label) hstart (h.here.of_label hsame.label)
        fun c hc => hnew.mp hyes c (hc.of_label hsame.label.symm)
    · exact hstart
  have hdyed : I (s.dyed q response_codes path_index code) := by
    rw [Walk.dyed]
    split
    · rename_i hyes
      exact hdye hshape hgrown hat hyes.2.1 (hyes.2.2.imp_left hnew.mp)
    · exact hgrown
  obtain ⟨hshape', hat'⟩ := h.dyed_at hcode h999
  rw [visit_eq]
  dsimp only
  split
  · rename_i hmatched
    rw [MctsTree.seed_matched]
    split
    · rename_i hstore
      exact hseed hshape' hdyed hat' hstore.1 hmatched hstore.2
    · exact hdyed
  · exact hdyed

/-- Whatever every edit of an iteration keeps holds after the iteration. -/
theorem visit_rule (h : s.Sound q response_codes path_index) (hcode : response_codes[path_index]? = some code)
    (h999 : code ≠ 999) {I : MctsTree → Prop} (hstart : I s.tree)
    (hunmark : ∀ {t t' : MctsTree}, MctsTree.SameBy GNode.skeleton t t' → I t → I t')
    (hblack : ∀ {t : MctsTree}, Shape t → I t → t.At s.tree_node (response_codes.take path_index) →
      (∀ c, ¬ t.At c (response_codes.take (path_index + 1))) →
      I (t.add s.tree_node (.fresh code .Black (response_codes.take (path_index + 1)))))
    (hdye : ∀ {t : MctsTree} {v : NodeId}, Shape t → I t → t.At v (response_codes.take (path_index + 1)) →
      t.colour? v = some .Black → ((∀ c, ¬ s.tree.At c (response_codes.take (path_index + 1))) ∨
        path_index + 1 ≠ response_codes.length) → I (t.dye v (response_codes.take (path_index + 1))))
    (hseed : ∀ {t : MctsTree} {v : NodeId}, Shape t → I t →
      t.At v (response_codes.take (path_index + 1)) → t.colour? v = some .White →
      (match_regions q response_codes path_index s.regions).matched_exactly = true →
      (q.regions[(match_regions q response_codes path_index s.regions).matching_region_index]?.any
        fun r => r.state_count < response_codes.length) →
      I (t.seed v q (match_regions q response_codes path_index s.regions).matching_region_index)) :
    I (visit q response_codes path_index code s).tree :=
  h.edits_rule hcode h999 (hunmark (s.tree.unmark_same s.tree_node path_index response_codes.length) hstart) hblack hdye hseed

/-- An iteration keeps the nodes that are there. -/
theorem at_visit (h : s.Sound q response_codes path_index) (hcode : response_codes[path_index]? = some code)
    (h999 : code ≠ 999) {v : NodeId} {x : List UInt32} (hv : s.tree.At v x) :
    (visit q response_codes path_index code s).tree.At v x :=
  h.visit_rule hcode h999 (I := fun t => t.At v x) hv (fun hsame hat => hat.of_label hsame.label)
    (fun _ hat _ _ => hat.add _ _) (fun _ hat _ _ _ => hat.dye _ _)
    (fun _ hat _ _ _ _ => hat.of_label (MctsTree.seed_label _ _ _ _))

/-- The nodes an iteration leaves are the old ones and the one it ends at. -/
theorem of_at_visit (h : s.Sound q response_codes path_index) (hcode : response_codes[path_index]? = some code)
    (h999 : code ≠ 999) {v : NodeId} {x : List UInt32}
    (hv : (visit q response_codes path_index code s).tree.At v x) :
    s.tree.At v x ∨ x = response_codes.take (path_index + 1) := by
  revert v x
  refine h.visit_rule hcode h999
    (I := fun t => ∀ {v : NodeId} {x : List UInt32}, t.At v x → s.tree.At v x ∨ x = response_codes.take (path_index + 1))
    Or.inl ?_ ?_ ?_ ?_
  · intro t t' hsame ih v x hat
    exact ih (hat.of_label hsame.label.symm)
  · rintro t _ ih hhere _ v x ⟨n, hn, hcolour, hpath⟩
    rcases MctsTree.getElem?_of_add hn with ⟨rfl, rfl⟩ | ⟨old, hold, _, hdata, _, _⟩
    · exact Or.inr hpath.symm
    · rw [hdata] at hcolour hpath
      exact ih ⟨old, hold, hcolour, hpath⟩
  · rintro t w _ ih hw hblack _ v x ⟨n, hn, hcolour, hpath⟩
    rcases MctsTree.getElem?_of_dye hw.lt hn with ⟨rfl, rfl⟩ | ⟨old, hold, rfl⟩
    · exact absurd rfl hcolour
    · by_cases hwv : w = v
      · subst hwv
        rw [if_pos rfl] at hpath
        obtain ⟨k, hk, hkcolour, hkpath⟩ := hw
        rw [hk] at hold
        cases hold
        exact ih ⟨_, hk, hkcolour, hpath⟩
      · rw [if_neg hwv] at hcolour hpath
        exact ih ⟨old, hold, hcolour, hpath⟩
  · intro t w _ ih _ _ _ _ v x hat
    exact ih (hat.of_label (MctsTree.seed_label _ _ _ _).symm)

/-- One iteration keeps what holds between two iterations. The code must not be 999, which would
lead to a SimNode. -/
protected theorem visit (h : s.Sound q response_codes path_index) (hcode : response_codes[path_index]? = some code)
    (h999 : code ≠ 999) : (visit q response_codes path_index code s).Sound q response_codes (path_index + 1) := by
  have hshape : Shape (mcts.visit q response_codes path_index code s).tree := by
    refine h.visit_rule hcode h999 (I := Shape) h.shape (fun hsame ih => ih.of_label hsame.label) ?_ ?_ ?_
    · rintro t _ ih ⟨n, hn, hcolour, hpath⟩ habsent
      rw [take_succ_of_getElem? hcode, ← hpath]
      apply ih.add_black hn hcolour h999
      intro c m hc hparent hid
      have hchild := ih.parent_at_of_child hc hparent (fun hgolden => h999 (hid ▸ (ih.golden hc hgolden).2.1)) hn
      rw [hpath, hid, ← take_succ_of_getElem? hcode] at hchild
      exact habsent c hchild
    · intro t v _ ih hv hblack _
      exact ih.dye_at hv hblack
    · intro t v _ ih _ _ _ _
      exact ih.of_label (MctsTree.seed_label _ _ _ _)
  have hnew := (h.grow hcode h999).1
  have hdyed := (h.dyed_at hcode h999).2
  refine ⟨(second_round_step_holds h.ready false hcode).2.1, hshape, ?_, ?_⟩
  · rw [visit_eq]
    dsimp only
    split
    · exact hdyed.of_label (MctsTree.seed_matched_label _ _ _ _ _)
    · exact hdyed
  · intro hfresh c code' hc
    rw [visit_eq] at hfresh
    rcases h.of_at_visit hcode h999 hc with hold | heq
    · have hne : c ≠ ROOT := by
        rintro rfl
        have hroot : response_codes.take (path_index + 1) ++ [code'] = [] ++ [0] := h.shape.at_root_iff.mp hold
        have hnil := (List.append_singleton_inj.mp hroot).1
        rw [take_succ_of_getElem? hcode] at hnil
        simp at hnil
      obtain ⟨u, _, _, _, _, hparent, heq, _⟩ := h.shape.at_parent hold hne
      obtain ⟨rfl, _⟩ := List.append_singleton_inj.mp heq
      exact hnew.mp hfresh u hparent
    · simp at heq

end Walk.Sound

end aflnet.mcts
