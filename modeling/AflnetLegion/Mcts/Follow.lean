import Mathlib.Data.List.Find
import AflnetLegion.Mcts.Pruning
import AflnetLegion.Mcts.Grow

open Checked

namespace aflnet.mcts

/-- The node that the codes lead to from `v`, with `exists_child` at every step. -/
def MctsTree.follow (t : MctsTree) : NodeId → List UInt32 → Option NodeId
  | v, [] => some v
  | v, code :: codes => (t.child_with_id v code).bind fun c => t.follow c codes

theorem MctsTree.follow_append (t : MctsTree) (v : NodeId) (x y : List UInt32) :
    t.follow v (x ++ y) = (t.follow v x).bind fun u => t.follow u y := by
  induction x generalizing v with
  | nil => rfl
  | cons code x ih =>
    rw [List.cons_append, follow, follow]
    cases t.child_with_id v code with
    | none => rfl
    | some c => exact ih c

theorem MctsTree.follow_concat (t : MctsTree) (v : NodeId) (x : List UInt32) (code : UInt32) :
    t.follow v (x ++ [code]) = (t.follow v x).bind fun u => t.child_with_id u code := by
  rw [follow_append]
  simp only [follow, Option.bind_fun_some]

theorem MctsTree.exists_follow_take {t : MctsTree} {v u : NodeId} {x : List UInt32} (h : t.follow v x = some u) (k : Nat) :
    ∃ w, t.follow v (x.take k) = some w := by
  rw [← List.take_append_drop k x, follow_append] at h
  obtain ⟨w, hw, _⟩ := Option.bind_eq_some_iff.mp h
  exact ⟨w, hw⟩

/-- The nodes of `t` are still in `t'`, with their parent, their id and their children; new
children are behind the old ones. -/
def MctsTree.Grows (t t' : MctsTree) : Prop :=
  ∀ (v : NodeId) (n : GNode), t.nodes[v]? = some n → ∃ n', t'.nodes[v]? = some n' ∧
    n'.parent = n.parent ∧ n'.data.id = n.data.id ∧ n.children <+: n'.children

namespace MctsTree.Grows

variable {t t' t'' : MctsTree}

theorem refl (t : MctsTree) : Grows t t := fun _ n hv => ⟨n, hv, rfl, rfl, List.prefix_refl _⟩

theorem trans (h : Grows t t') (h' : Grows t' t'') : Grows t t'' := by
  intro v n hv
  obtain ⟨n', hv', hparent, hid, hchildren⟩ := h v n hv
  obtain ⟨n'', hv'', hparent', hid', hchildren'⟩ := h' v n' hv'
  exact ⟨n'', hv'', hparent'.trans hparent, hid'.trans hid, hchildren.trans hchildren'⟩

/-- Assignments to the other fields of a node. -/
theorem modify (t : MctsTree) (u : NodeId) {f : TreeNodeData → TreeNodeData} (hf : ∀ d, (f d).id = d.id) :
    Grows t (t.modify u f) := by
  intro v n hv
  by_cases huv : u = v
  · subst huv
    exact ⟨_, getElem?_modify_self hv f, rfl, hf n.data, List.prefix_refl _⟩
  · exact ⟨n, (getElem?_modify_ne t huv f).trans hv, rfl, rfl, List.prefix_refl _⟩

theorem add (t : MctsTree) (u : NodeId) (d : TreeNodeData) : Grows t (t.add u d) := by
  intro v n hv
  by_cases huv : u = v
  · subst huv
    exact ⟨_, getElem?_add_parent d hv, rfl, rfl, List.prefix_append _ _⟩
  · exact ⟨n, getElem?_add_ne d hv huv, rfl, rfl, List.prefix_refl _⟩

theorem dye (t : MctsTree) (u : NodeId) (path : List UInt32) : Grows t (t.dye u path) :=
  (add t u _).trans (modify _ u fun _ => rfl)

theorem seed (t : MctsTree) (u : NodeId) (q : queue_entry) (region_index : Nat) :
    Grows t (t.seed u q region_index) := by
  rw [MctsTree.seed]
  split
  · exact modify t _ fun _ => rfl
  · exact refl t

theorem unmark (t : MctsTree) (u : NodeId) (path_index len_codes : Nat) :
    Grows t (t.unmark u path_index len_codes) := by
  rw [MctsTree.unmark]
  split
  · exact modify t u fun _ => rfl
  · exact refl t

theorem discover (is_new : Bool) (fuel : Nat) (t : MctsTree) (v : Option NodeId) :
    Grows t (t.discover is_new fuel v) := by
  induction fuel generalizing t v with
  | zero => cases v <;> exact refl t
  | succ fuel ih =>
    cases v with
    | none => exact refl t
    | some v =>
      rw [MctsTree.discover]
      refine trans ?_ (ih _ _)
      exact modify t v fun _ => rfl

theorem finish (t : MctsTree) (v : NodeId) (new_path : Bool) : Grows t (t.finish v new_path) := by
  rw [MctsTree.finish]
  refine trans ?_ (discover _ _ _ _)
  exact modify t v fun _ => rfl

/-- The search for a child goes on to the new children where it ended before. -/
theorem child_with_id_eq (h : Grows t t') (ht : Linked t) {v : NodeId} {n n' : GNode} (hn : t.nodes[v]? = some n)
    (hn' : t'.nodes[v]? = some n') {more : List NodeId} (hmore : n'.children = n.children ++ more) (code : UInt32) :
    t'.child_with_id v code = (t.child_with_id v code).or
      (more.find? fun c => t'.nodes[c]?.any fun m => m.data.id = code) := by
  have hsame : ∀ u ∈ n.children, (t'.nodes[u]?.any fun m => decide (m.data.id = code)) =
      t.nodes[u]?.any fun m => decide (m.data.id = code) := by
    intro u hu
    obtain ⟨m, hm, _⟩ := ht.child hn hu
    obtain ⟨m', hm', _, hid, _⟩ := h u m hm
    rw [hm, hm', Option.any_some, Option.any_some, hid]
  rw [MctsTree.child_with_id, MctsTree.child_with_id, hn, hn', Option.bind_some, Option.bind_some, hmore,
    List.find?_append]
  congr 1
  exact List.find?_congr hsame

/-- A child that is found is found again. -/
theorem child_with_id (h : Grows t t') (ht : Linked t) {v c : NodeId} {code : UInt32}
    (hc : t.child_with_id v code = some c) : t'.child_with_id v code = some c := by
  obtain ⟨n, hn, _⟩ := Option.bind_eq_some_iff.mp hc
  obtain ⟨n', hn', _, _, more, hmore⟩ := h v n hn
  rw [h.child_with_id_eq ht hn hn' hmore.symm, hc, Option.some_or]

/-- The way to a node still leads to it after the tree has grown, as searches find the same
children. -/
theorem follow (h : Grows t t') (ht : Linked t) {v u : NodeId} {codes : List UInt32}
    (hu : t.follow v codes = some u) : t'.follow v codes = some u := by
  induction codes generalizing v with
  | nil => exact hu
  | cons code codes ih =>
    rw [MctsTree.follow] at hu ⊢
    obtain ⟨c, hc, hrest⟩ := Option.bind_eq_some_iff.mp hu
    rw [h.child_with_id ht hc, Option.bind_some]
    exact ih hrest

end MctsTree.Grows

section visit

variable {q : queue_entry} {response_codes : List UInt32} {path_index : Nat} {code : UInt32} {s : Walk}

/-- After it has appended its node, an iteration only assigns to fields and may append a
SimNode. -/
theorem grown_grows_visit :
    (s.grown response_codes path_index code).Grows (visit q response_codes path_index code s).tree :=
  visit_of_grown (I := fun t => (s.grown response_codes path_index code).Grows t) (MctsTree.Grows.refl _)
    (fun ih _ => ih.trans (MctsTree.Grows.dye _ _ _)) (fun _ _ ih => ih.trans (MctsTree.Grows.seed _ _ _ _))

/-- An iteration keeps every way through the tree. -/
theorem grows_visit : s.tree.Grows (visit q response_codes path_index code s).tree := by
  refine (MctsTree.Grows.trans (MctsTree.Grows.unmark s.tree s.tree_node path_index response_codes.length) ?_).trans
    grown_grows_visit
  rw [Walk.grown]
  split
  · exact MctsTree.Grows.add _ _ _
  · exact MctsTree.Grows.refl _

end visit

namespace Linked

variable {t : MctsTree} {v u : NodeId} {x y : List UInt32} {code : UInt32}

theorem follow_present (h : Linked t) (hu : t.follow ROOT x = some u) : ∃ n, t.nodes[u]? = some n := by
  rcases List.eq_nil_or_concat x with rfl | ⟨x, code, rfl⟩
  · obtain ⟨r, hr, _⟩ := h.root
    cases hu
    exact ⟨r, hr⟩
  · rw [List.concat_eq_append, MctsTree.follow_concat] at hu
    obtain ⟨p, _, hchild⟩ := Option.bind_eq_some_iff.mp hu
    obtain ⟨n, hn, _⟩ := Option.bind_eq_some_iff.mp hchild
    obtain ⟨_, m, hm, _⟩ := h.child_with_id_spec hn hchild
    exact ⟨m, hm⟩

/-- The last step of the way to a node. -/
theorem follow_concat_spec (h : Linked t) (hv : t.follow ROOT (x ++ [code]) = some v) :
    ∃ u n, t.follow ROOT x = some u ∧ t.nodes[v]? = some n ∧ n.parent = some u ∧ n.data.id = code ∧
      t.child_with_id u code = some v := by
  rw [MctsTree.follow_concat] at hv
  obtain ⟨u, hu, hchild⟩ := Option.bind_eq_some_iff.mp hv
  obtain ⟨p, hp⟩ := h.follow_present hu
  obtain ⟨_, n, hn, hparent, hid⟩ := h.child_with_id_spec hp hchild
  exact ⟨u, n, hu, hn, hparent, hid, hchild⟩

/-- Different codes lead to different nodes. -/
theorem follow_injective (h : Linked t) (hx : t.follow ROOT x = some v) (hy : t.follow ROOT y = some v) : x = y := by
  induction x using List.reverseRecOn generalizing y v with
  | nil =>
    cases hx
    rcases List.eq_nil_or_concat y with rfl | ⟨y, code, rfl⟩
    · rfl
    · rw [List.concat_eq_append] at hy
      obtain ⟨_, n, _, hn, hparent, _⟩ := h.follow_concat_spec hy
      exact absurd rfl (h.ne_root_of_parent hn hparent)
  | append_singleton x code ih =>
    obtain ⟨u, n, hu, hn, hparent, hid, _⟩ := h.follow_concat_spec hx
    rcases List.eq_nil_or_concat y with rfl | ⟨y, code', rfl⟩
    · cases hy
      exact absurd rfl (h.ne_root_of_parent hn hparent)
    · rw [List.concat_eq_append] at hy ⊢
      obtain ⟨u', n', hu', hn', hparent', hid', _⟩ := h.follow_concat_spec hy
      rw [hn] at hn'
      cases hn'
      rw [hparent] at hparent'
      cases hparent'
      rw [ih hu hu', ← hid, ← hid']

/-- The way to an old node was there before. -/
theorem follow_of_grows {t' : MctsTree} (h : Linked t) (h' : Linked t') (hgrows : t.Grows t')
    (hv : t'.follow ROOT x = some v) (hold : v < t.nodes.length) : t.follow ROOT x = some v := by
  induction x using List.reverseRecOn generalizing v with
  | nil => exact hv
  | append_singleton x code ih =>
    obtain ⟨u, n', hu, hn', hparent', hid', hchild'⟩ := h'.follow_concat_spec hv
    obtain ⟨n, hn⟩ := MctsTree.getElem?_of_lt hold
    obtain ⟨n'', hn'', hparent, hid, _⟩ := hgrows v n hn
    rw [hn'] at hn''
    cases hn''
    rw [hparent'] at hparent
    obtain ⟨m, hm, hlt, hmem⟩ := h.exists_parent hn hparent.symm
    rw [MctsTree.follow_concat, ih hu (Nat.lt_trans hlt hold), Option.bind_some]
    -- some child with that id was there; it is still the first one
    have hsome : (t.child_with_id u code).isSome := by
      rw [MctsTree.child_with_id, hm, Option.bind_some, List.find?_isSome]
      exact ⟨v, hmem, by simp [hn, ← hid, hid']⟩
    obtain ⟨c, hc⟩ := Option.isSome_iff_exists.mp hsome
    have hfound := hgrows.child_with_id h hc
    rw [hchild'] at hfound
    rw [hc, hfound]

end Linked

/-- `v` has no child but a SimNode. -/
def MctsTree.Bare (t : MctsTree) (v : NodeId) : Prop :=
  ∀ (c : NodeId) (m : GNode), t.nodes[c]? = some m → m.parent = some v → m.data.id = 999

namespace MctsTree.Bare

variable {t : MctsTree} {v : NodeId}

theorem child_with_id (h : t.Bare v) (ht : Linked t) {code : UInt32} (hcode : code ≠ 999) :
    t.child_with_id v code = none := by
  rw [Option.eq_none_iff_forall_ne_some]
  intro c hc
  obtain ⟨n, hn, _⟩ := Option.bind_eq_some_iff.mp hc
  obtain ⟨_, m, hm, hparent, hid⟩ := ht.child_with_id_spec hn hc
  exact hcode (hid.symm.trans (h c m hm hparent))

theorem add_new (ht : Linked t) (u : NodeId) (d : TreeNodeData) (hu : u < t.nodes.length) :
    (t.add u d).Bare t.nodes.length := by
  intro c m hc hparent
  rcases getElem?_of_add hc with ⟨_, rfl⟩ | ⟨old, hold, hlt, _, hp, _⟩
  · exact absurd (Option.some.inj hparent) (Nat.ne_of_lt hu)
  · rw [hp] at hparent
    obtain ⟨p, hp', _⟩ := ht.exists_parent hold hparent
    exact absurd (lt_of_getElem? hp') (Nat.lt_irrefl _)

theorem dye (h : t.Bare v) {u : NodeId} (path : List UInt32) (hu : u < t.nodes.length) : (t.dye u path).Bare v := by
  intro c m' hc hparent
  rcases identity_of_dye hu hc with ⟨_, _, hid⟩ | ⟨m, hm, hp, hid⟩
  · exact hid
  · rw [hid]
    exact h c m hm (hp.symm.trans hparent)

theorem seed (h : t.Bare v) (u : NodeId) (q : queue_entry) (region_index : Nat) : (t.seed u q region_index).Bare v := by
  intro c m' hc hparent
  obtain ⟨m, hm, hsame⟩ := (t.seed_label u q region_index).symm.exists_node hc
  have hid : m.data.id = m'.data.id := congrArg Label.id hsame
  rw [← hid]
  exact h c m hm ((GNode.parent_of_links (GNode.links_of_label hsame)).trans hparent)

end MctsTree.Bare

end aflnet.mcts
