import AflnetLegion.Mcts.Alias
import AflnetLegion.Mcts.Follow

open Checked

namespace aflnet.mcts

namespace MctsTree.Flagged

variable {t : MctsTree} {v u : NodeId}

theorem iff_of_getElem? {n : GNode} (hv : t.nodes[v]? = some n) : t.Flagged v ↔ n.data.fully_explored = true := by
  rw [Flagged, hv, Option.any_some]

theorem exists_node (h : t.Flagged v) : ∃ n, t.nodes[v]? = some n ∧ n.data.fully_explored = true := by
  cases hv : t.nodes[v]? with
  | none =>
    rw [Flagged, hv] at h
    cases h
  | some n => exact ⟨n, rfl, (iff_of_getElem? hv).mp h⟩

theorem modify (h : t.Flagged v) (u : NodeId) {f : TreeNodeData → TreeNodeData}
    (hf : u = v → ∀ d, (f d).fully_explored = d.fully_explored) : (t.modify u f).Flagged v := by
  obtain ⟨n, hn, hflag⟩ := h.exists_node
  by_cases huv : u = v
  · rw [huv, iff_of_getElem? (getElem?_modify_self hn f)]
    exact (hf huv n.data).trans hflag
  · rw [iff_of_getElem? ((getElem?_modify_ne t huv f).trans hn)]
    exact hflag

theorem add (h : t.Flagged v) (u : NodeId) (d : TreeNodeData) : (t.add u d).Flagged v := by
  obtain ⟨n, hn, hflag⟩ := h.exists_node
  by_cases huv : u = v
  · subst huv
    exact (iff_of_getElem? (getElem?_add_parent d hn)).mpr hflag
  · exact (iff_of_getElem? (getElem?_add_ne d hn huv)).mpr hflag

theorem dye (h : t.Flagged v) (u : NodeId) (path : List UInt32) : (t.dye u path).Flagged v :=
  (h.add u _).modify u fun _ _ => rfl

theorem seed (h : t.Flagged v) (u : NodeId) (q : queue_entry) (region_index : Nat) :
    (t.seed u q region_index).Flagged v := by
  rw [MctsTree.seed]
  split
  · exact h.modify _ fun _ _ => rfl
  · exact h

theorem unmark (h : t.Flagged v) {path_index len_codes : Nat} (hne : path_index ≠ len_codes - 1 → u ≠ v) :
    (t.unmark u path_index len_codes).Flagged v := by
  rw [MctsTree.unmark]
  split
  · rename_i hlast
    exact h.modify u fun heq => absurd heq (hne hlast)
  · exact h

theorem discover (h : t.Flagged v) (is_new : Bool) (fuel : Nat) (w : Option NodeId) :
    (t.discover is_new fuel w).Flagged v := by
  induction fuel generalizing t w with
  | zero => cases w <;> exact h
  | succ fuel ih =>
    cases w with
    | none => exact h
    | some w =>
      rw [MctsTree.discover]
      refine ih ?_ _
      exact h.modify w fun _ _ => rfl

end MctsTree.Flagged

theorem MctsTree.exists_of_colour? {t : MctsTree} {v : NodeId} {colour : node_colour} (h : t.colour? v = some colour) :
    ∃ n, t.nodes[v]? = some n ∧ n.data.colour = colour :=
  Option.map_eq_some_iff.mp h

/-- A new child is found if no other child has its id. -/
theorem MctsTree.child_with_id_add {t : MctsTree} (h : Linked t) {v : NodeId} {n : GNode} (hv : t.nodes[v]? = some n)
    {d : TreeNodeData} (hnone : t.child_with_id v d.id = none) :
    (t.add v d).child_with_id v d.id = some t.nodes.length := by
  rw [child_with_id, hv, Option.bind_some, List.find?_eq_none] at hnone
  rw [child_with_id, getElem?_add_parent d hv, Option.bind_some, List.find?_append]
  have hold : (n.children.find? fun c => (t.add v d).nodes[c]?.any fun m => decide (m.data.id = d.id)) = none := by
    rw [List.find?_eq_none]
    intro c hc
    obtain ⟨m, hm, _⟩ := h.child hv hc
    obtain ⟨m', hm', _, hid, _⟩ := Grows.add t v d c m hm
    have hother := hnone c hc
    rw [hm, Option.any_some] at hother
    rw [hm', Option.any_some, hid]
    exact hother
  rw [hold, Option.none_or, List.find?_cons, getElem?_add_new, Option.any_some, decide_eq_true rfl]

namespace Walk.Ready

variable {q : queue_entry} {response_codes : List UInt32} {path_index : Nat} {code : UInt32} {s : Walk}

/-- The walk steps to the child with the code, if need be a new one. -/
theorem grown (h : s.Ready q) (hbare : s.new_node = true → s.tree.Bare s.tree_node) (hcode : code ≠ 999) :
    Linked (s.grown response_codes path_index code) ∧
    (s.unmarked path_index response_codes.length).Grows (s.grown response_codes path_index code) ∧
    (s.grown response_codes path_index code).child_with_id s.tree_node code =
      some (s.next path_index response_codes.length code) ∧
    (s.appends path_index response_codes.length code = true →
      (s.grown response_codes path_index code).Bare (s.next path_index response_codes.length code)) := by
  obtain ⟨hlinked, hlength, _⟩ := h.unmark path_index response_codes.length
  have hbare' : s.new_node = true → (s.unmarked path_index response_codes.length).Bare s.tree_node := by
    intro hnew c m hc hparent
    obtain ⟨m', hm', hsame⟩ := (s.tree.unmark_same s.tree_node path_index response_codes.length).label.symm.exists_node hc
    have hid : m'.data.id = m.data.id := congrArg Label.id hsame
    rw [← hid]
    exact hbare hnew c m' hm' ((GNode.parent_of_links (GNode.links_of_label hsame)).trans hparent)
  have happends : s.appends path_index response_codes.length code =
      (s.new_node || ((s.unmarked path_index response_codes.length).child_with_id s.tree_node code).isNone) := rfl
  have hhere : s.tree_node < (s.unmarked path_index response_codes.length).nodes.length :=
    Nat.lt_of_lt_of_eq h.present hlength.symm
  have hlinked' : Linked (s.unmarked path_index response_codes.length) := hlinked
  rw [Walk.grown, Walk.next]
  generalize s.unmarked path_index response_codes.length = t at happends hbare' hhere hlinked' ⊢
  obtain ⟨n, hn⟩ := MctsTree.getElem?_of_lt hhere
  cases hnew : s.appends path_index response_codes.length code with
  | false =>
    rw [hnew] at happends
    obtain ⟨_, hfound⟩ := Bool.or_eq_false_iff.mp happends.symm
    obtain ⟨c, hc⟩ := Option.isSome_iff_exists.mp (Option.isNone_eq_false_iff.mp hfound)
    rw [if_neg Bool.false_ne_true, if_neg Bool.false_ne_true, hc, Option.getD_some]
    exact ⟨hlinked', MctsTree.Grows.refl t, rfl, fun hfalse => absurd hfalse Bool.false_ne_true⟩
  | true =>
    have hnone : t.child_with_id s.tree_node code = none := by
      rw [hnew] at happends
      rcases Bool.or_eq_true_iff.mp happends.symm with hfresh | hmissing
      · exact (hbare' hfresh).child_with_id hlinked' hcode
      · exact Option.isNone_iff_eq_none.mp hmissing
    rw [if_pos rfl, if_pos rfl]
    refine ⟨hlinked'.add hn (by simp [TreeNodeData.fresh]), MctsTree.Grows.add t _ _,
      MctsTree.child_with_id_add hlinked' hn hnone, fun _ => MctsTree.Bare.add_new hlinked' _ _ hhere⟩

end Walk.Ready

section visit

variable {q : queue_entry} {response_codes : List UInt32} {path_index : Nat} {code : UInt32} {s : Walk} {u : NodeId}

/-- After it has unmarked the node it leaves, an iteration changes no flag. -/
theorem flagged_visit (h : (s.unmarked path_index response_codes.length).Flagged u) :
    (visit q response_codes path_index code s).tree.Flagged u := by
  refine visit_of_grown (I := fun t => t.Flagged u) ?_ (fun ih _ => ih.dye _ _) (fun _ _ ih => ih.seed _ _ _)
  rw [Walk.grown]
  split
  · exact h.add _ _
  · exact h

/-- What is not marked once the iteration has cleared its flag is not marked after it. -/
theorem not_flagged_visit (h : ¬ (s.unmarked path_index response_codes.length).Flagged u) :
    ¬ (visit q response_codes path_index code s).tree.Flagged u := by
  refine visit_of_grown (I := fun t => ¬ t.Flagged u) ?_ (fun ih _ hset => ih hset.of_dye)
    (fun _ _ ih hset => ih hset.of_seed)
  rw [Walk.grown]
  split
  · exact fun hset => h (hset.of_add rfl)
  · exact h

end visit

/-- What the walk of a response through `t` has done with the flags once it is at
`depth`: the nodes it has left are unmarked, except for the parent of the last one. -/
structure Walk.Unmarks (t : MctsTree) (q : queue_entry) (response_codes : List UInt32) (depth : Nat) (s : Walk) :
    Prop where
  ready : s.Ready q
  grows : t.Grows s.tree
  here : s.tree.follow ROOT (response_codes.tail.take (depth - 1)) = some s.tree_node
  fresh : s.new_node = true → s.tree.Bare s.tree_node
  cleared : ∀ (k : Nat) (u : NodeId), k + 1 < depth → k + 2 < response_codes.length →
    s.tree.follow ROOT (response_codes.tail.take k) = some u → ¬ s.tree.Flagged u
  kept : ∀ u, s.tree.follow ROOT response_codes.tail.dropLast = some u → t.Flagged u → s.tree.Flagged u

namespace Walk.Unmarks

variable {t : MctsTree} {q : queue_entry} {response_codes : List UInt32} {depth : Nat} {code : UInt32} {s : Walk}

theorem start (h : Linked t) (hregions : 0 < q.region_count) :
    (Walk.start (t.seed ROOT q 0) ROOT).Unmarks t q response_codes 1 where
  ready := h.start_ready hregions
  grows := MctsTree.Grows.seed t ROOT q 0
  here := by
    rw [Nat.sub_self, List.take_zero]
    rfl
  fresh := fun hfalse => absurd hfalse Bool.false_ne_true
  cleared := fun k u hk => by omega
  kept := fun u _ hflag => hflag.seed ROOT q 0

/-- The flag of the node that is left is cleared, unless its child is the last node. -/
theorem unmarked_here (h : s.Unmarks t q response_codes depth) {k : Nat} {u : NodeId} (hk : k < depth)
    (hinner : k + 2 < response_codes.length) (hu : s.tree.follow ROOT (response_codes.tail.take k) = some u) :
    ¬ (s.unmarked depth response_codes.length).Flagged u := by
  by_cases hold : k + 1 < depth
  · exact fun hset => h.cleared k u hold hinner hu hset.of_unmark
  · have hhere : s.tree_node = u := by
      have heq := h.here
      rw [show depth - 1 = k by omega, hu] at heq
      exact (Option.some.inj heq).symm
    rw [Walk.unmarked, MctsTree.unmark, if_pos (by omega), hhere]
    obtain ⟨n, hn⟩ := h.ready.linked.follow_present hu
    rw [MctsTree.Flagged.iff_of_getElem? (MctsTree.getElem?_modify_self hn _)]
    exact Bool.false_ne_true

/-- The parent of the last node keeps its flag. -/
theorem flagged_parent (h : s.Unmarks t q response_codes depth) (hdepth : 1 ≤ depth) (hlt : depth < response_codes.length) {u : NodeId}
    (hu : s.tree.follow ROOT response_codes.tail.dropLast = some u) (hset : t.Flagged u) :
    (s.unmarked depth response_codes.length).Flagged u := by
  apply (h.kept u hu hset).unmark
  rintro hlast rfl
  have hlen := congrArg List.length (h.ready.linked.follow_injective h.here hu)
  rw [List.length_take, List.length_dropLast, List.length_tail] at hlen
  omega

/-- One iteration: it clears the flag of the node it leaves, unless its own node is
the last one, and no other flag. -/
protected theorem visit (h : s.Unmarks t q response_codes depth) (hdepth : 1 ≤ depth)
    (hcode : response_codes[depth]? = some code) (h999 : code ≠ 999) :
    (visit q response_codes depth code s).Unmarks t q response_codes (depth + 1) := by
  have hready := (second_round_step_holds h.ready false hcode).2.1
  obtain ⟨hlinked, hgrows, hchild, hbare⟩ := @Walk.Ready.grown q response_codes depth code s h.ready h.fresh h999
  have hnode : (visit q response_codes depth code s).tree_node = s.next depth response_codes.length code := by
    rw [visit_eq]
  have hflag : (visit q response_codes depth code s).new_node = s.appends depth response_codes.length code := by
    rw [visit_eq]
  have hlt : depth < response_codes.length := (List.getElem?_eq_some_iff.mp hcode).1
  have hall : s.tree.Grows (visit q response_codes depth code s).tree :=
    ((MctsTree.Grows.unmark s.tree s.tree_node depth response_codes.length).trans hgrows).trans grown_grows_visit
  have hpath : response_codes.tail.take depth = response_codes.tail.take (depth - 1) ++ [code] := by
    have hget : response_codes.tail[depth - 1]? = some code := by
      rw [List.getElem?_tail, Nat.sub_add_cancel hdepth, hcode]
    rw [← take_succ_of_getElem? hget, Nat.sub_add_cancel hdepth]
  refine ⟨hready, h.grows.trans hall, ?_, ?_, ?_, ?_⟩
  · rw [Nat.add_sub_cancel, hpath, MctsTree.follow_concat, hall.follow h.ready.linked h.here, Option.bind_some, hnode]
    exact grown_grows_visit.child_with_id hlinked hchild
  · rw [hflag, hnode]
    intro hnew
    refine visit_of_grown (I := fun t' => t'.Bare (s.next depth response_codes.length code)) (hbare hnew) ?_ ?_
    · intro t' ih hblack
      obtain ⟨n, hn, _⟩ := MctsTree.exists_of_colour? hblack
      exact ih.dye _ (MctsTree.lt_of_getElem? hn)
    · exact fun v region_index ih => ih.seed v q region_index
  · intro k u hk hinner hu
    -- the prefix was there before the iteration
    have hbefore : s.tree.follow ROOT (response_codes.tail.take k) = some u := by
      obtain ⟨w, hw⟩ := MctsTree.exists_follow_take h.here k
      rw [List.take_take, Nat.min_eq_left (by omega)] at hw
      have hsame := hall.follow h.ready.linked hw
      rw [hu] at hsame
      rw [hw, hsame]
    exact not_flagged_visit (h.unmarked_here (Nat.lt_of_succ_lt_succ hk) hinner hbefore)
  · intro u hu hset
    obtain ⟨n, hn, _⟩ := hset.exists_node
    obtain ⟨n', hn', _⟩ := h.grows u n hn
    have hbefore := h.ready.linked.follow_of_grows hready.linked hall hu (MctsTree.lt_of_getElem? hn')
    exact flagged_visit (h.flagged_parent hdepth hlt hbefore hset)

/-- The rest of the second round. -/
protected theorem visit_all (h : s.Unmarks t q response_codes depth) (hdepth : 1 ≤ depth) {codes : List UInt32}
    (hcodes : response_codes.drop depth = codes) (h999 : 999 ∉ codes) :
    (visit_all q response_codes depth codes s).Unmarks t q response_codes (depth + codes.length) := by
  induction codes generalizing depth s with
  | nil => exact h
  | cons code codes ih =>
    rw [List.mem_cons, not_or] at h999
    have hcode : response_codes[depth]? = some code := by
      rw [← List.head?_drop, hcodes]
      rfl
    have hrest : response_codes.drop (depth + 1) = codes := by
      rw [← List.tail_drop, hcodes]
      rfl
    rw [visit_all, List.length_cons, Nat.add_comm codes.length 1, ← Nat.add_assoc]
    exact ih (h.visit hdepth hcode (Ne.symm h999.1)) (Nat.le_succ_of_le hdepth) hrest h999.2

end Walk.Unmarks

/-- Every node of the response before the last one is there and not marked as fully
explored. -/
def MctsTree.InteriorUnmarked (t : MctsTree) (response_codes : List UInt32) : Prop :=
  ∀ k, k + 1 < response_codes.length → ∃ v n, t.follow ROOT (response_codes.tail.take k) = some v ∧
    t.nodes[v]? = some n ∧ n.data.fully_explored = false

/-- The node of the response without its last code is not marked, if there is one. -/
def MctsTree.ParentUnmarked (t : MctsTree) (response_codes : List UInt32) : Prop :=
  ∀ v n, t.follow ROOT response_codes.tail.dropLast = some v → t.nodes[v]? = some n → n.data.fully_explored = false

namespace Walk.Unmarks

variable {t : MctsTree} {q : queue_entry} {response_codes : List UInt32}

/-- The last node is none of the interior ones. -/
theorem ne_last {s : Walk} (h : s.Unmarks t q response_codes response_codes.length) {k : Nat} {u : NodeId}
    (hk : k + 1 < response_codes.length) (hu : s.tree.follow ROOT (response_codes.tail.take k) = some u) :
    u ≠ s.tree_node := by
  rintro rfl
  have heq := congrArg List.length (h.ready.linked.follow_injective hu h.here)
  rw [List.length_take, List.length_take, List.length_tail] at heq
  omega

/-- The codes behind the first one and before the last one lead to the parent of the last node.
-/
theorem take_parent (response_codes : List UInt32) :
    response_codes.tail.take (response_codes.length - 2) = response_codes.tail.dropLast := by
  rw [List.dropLast_eq_take, List.length_tail]
  rfl

/-- The parent of the last node is an interior node whose flag is kept. -/
theorem parent_unmarked (h : (t.walk q response_codes).Unmarks t q response_codes response_codes.length) (hlinked : Linked t)
    (hlen : 1 < response_codes.length) (hinterior : (t.expand q response_codes).1.InteriorUnmarked response_codes) :
    t.ParentUnmarked response_codes := by
  have hfinish : (t.walk q response_codes).tree.Grows (t.expand q response_codes).1 := MctsTree.Grows.finish _ _ _
  intro u n hu hn
  obtain ⟨u', n', hu', hn', hclear⟩ := hinterior (response_codes.length - 2) (by omega)
  rw [take_parent, (h.grows.trans hfinish).follow hlinked hu] at hu'
  cases hu'
  by_contra hset
  rw [Bool.not_eq_false] at hset
  have hbefore := h.grows.follow hlinked hu
  have hkept := h.kept u hbefore ((MctsTree.Flagged.iff_of_getElem? hn).mpr hset)
  have hne := h.ne_last (k := response_codes.length - 2) (by omega) ((take_parent response_codes).symm ▸ hbefore)
  have hfinal : (t.expand q response_codes).1.Flagged u := by
    apply MctsTree.Flagged.discover
    exact hkept.modify _ fun heq => absurd heq.symm hne
  rw [MctsTree.Flagged.iff_of_getElem? hn', hclear] at hfinal
  cases hfinal

/-- After the second round the interior nodes are unmarked if the parent of the last one was. -/
theorem interior_unmarked (h : (t.walk q response_codes).Unmarks t q response_codes response_codes.length)
    (hlinked : Linked t) (hparent : t.ParentUnmarked response_codes) :
    (t.expand q response_codes).1.InteriorUnmarked response_codes := by
  have hfinish : (t.walk q response_codes).tree.Grows (t.expand q response_codes).1 := MctsTree.Grows.finish _ _ _
  have hwalked := h.ready.linked
  intro k hk
  obtain ⟨u, hu⟩ := MctsTree.exists_follow_take h.here k
  rw [List.take_take, Nat.min_eq_left (by omega)] at hu
  obtain ⟨m, hm⟩ := hwalked.follow_present hu
  obtain ⟨n, hn, _⟩ := hfinish u m hm
  refine ⟨u, n, hfinish.follow hwalked hu, hn, ?_⟩
  by_contra hset
  rw [Bool.not_eq_false] at hset
  have hfinal : (t.expand q response_codes).1.Flagged u := (MctsTree.Flagged.iff_of_getElem? hn).mpr hset
  have hne := h.ne_last hk hu
  by_cases hinner : k + 2 < response_codes.length
  · have hmarked := MctsTree.Flagged.of_discover hfinal
    rw [MctsTree.Flagged, MctsTree.getElem?_modify_ne _ (Ne.symm hne)] at hmarked
    exact h.cleared k u hk hinner hu hmarked
  · obtain ⟨n', hn', hset'⟩ := (MctsTree.Flagged.of_expand hne hfinal).exists_node
    have hbefore := hlinked.follow_of_grows hwalked h.grows hu (MctsTree.lt_of_getElem? hn')
    rw [show k = response_codes.length - 2 by omega, take_parent] at hbefore
    rw [hparent u n' hbefore hn'] at hset'
    cases hset'

end Walk.Unmarks

/-- `Expansion` unmarks the interior nodes of the response except for the parent of the
last one: the index it compares with the last one belongs to the child. -/
theorem Run.interior_unmarked_iff {Ok : MctsTree → queue_entry → List UInt32 → Prop} {calls : List Call} {t t' : MctsTree}
    (hrun : Run Ok calls t) {q : queue_entry} {response_codes : List UInt32} (h999 : 999 ∉ response_codes)
    {v : NodeId} {new_path : Bool} (hret : Returns (Expansion t ROOT q response_codes) (t', v, new_path)) :
    t'.InteriorUnmarked response_codes ↔ t.ParentUnmarked response_codes := by
  obtain ⟨hregions, hlen, heq⟩ := hrun.linked.returns_expansion hret
  obtain rfl : t' = (t.expand q response_codes).1 := congrArg Prod.fst heq
  have hwalk : (t.walk q response_codes).Unmarks t q response_codes response_codes.length := by
    have hstart : (Walk.start (t.seed ROOT q 0) ROOT).Unmarks t q response_codes 1 := .start hrun.linked hregions
    have hround := hstart.visit_all (Nat.le_refl 1) (show response_codes.drop 1 = response_codes.tail by simp)
      fun hmem => h999 (List.mem_of_mem_tail hmem)
    rw [List.length_tail, Nat.add_sub_cancel' (Nat.le_of_lt hlen)] at hround
    exact hround
  exact ⟨hwalk.parent_unmarked hrun.linked hlen, hwalk.interior_unmarked hrun.linked⟩

/-- After the first response of three codes none of its interior nodes is marked. -/
theorem interior_of_first_entry :
    (MctsTree.initial.expand (exact_entry [0, 1, 2]) [0, 1, 2]).1.InteriorUnmarked [0, 1, 2] := by
  have hret := linked_initial.expansion_returns (q := exact_entry [0, 1, 2]) (by decide)
    (show 2 ≤ ([0, 1, 2] : List UInt32).length by decide)
  apply (Run.interior_unmarked_iff (Run.initial : Run WellAnnotated [] .initial) (by decide) hret).mpr
  intro v n hv
  cases hv

/-- The node of `[0, 1]` ends the first response; it is still marked when the second one goes on
behind it. -/
theorem marked_parent_of_last_node : ∃ calls t t' v new_path, Run WellAnnotated calls t ∧
    Returns (Expansion t ROOT (exact_entry [0, 1, 2]) [0, 1, 2]) (t', v, new_path) ∧
    ¬ t'.InteriorUnmarked [0, 1, 2] := by
  have hfirst : WellAnnotated .initial (exact_entry [0, 1]) [0, 1] := ⟨⟨by decide, rfl, by decide⟩, by decide, rfl⟩
  have hrun := Run.initial.expand hfirst (by decide) (by decide)
  refine ⟨_, _, _, _, _, hrun, hrun.linked.expansion_returns (by decide) (by decide), ?_⟩
  intro hinterior
  obtain ⟨v, n, hv, hn, hclear⟩ := hinterior 1 (by decide)
  cases hv
  cases hn
  cases hclear

end aflnet.mcts
