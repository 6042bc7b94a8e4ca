import AflnetLegion.Mcts.Refine

open Checked

namespace aflnet.mcts

/-- `first_round` as a function: whether some code has no node on the way down. -/
def MctsTree.missing (t : MctsTree) : NodeId → List UInt32 → Bool
  | _, [] => false
  | v, code :: codes =>
    match t.child_with_id v code with
    | none => true
    | some c => t.missing c codes

/-- `is_leaf` as a function, which reads the node and its only child. -/
def MctsTree.leaf (t : MctsTree) (v : NodeId) : Bool :=
  t.nodes[v]?.any fun n =>
    match n.children with
    | [] => n.data.colour ≠ .Purple
    | [child] => n.data.colour ≠ .Purple ∧ t.colour? child = some .Golden
    | _ => false

/-- `propagate_discovered` as a function: the counters from a node up to the root are raised by
one for a new path, and left as they are otherwise. -/
def MctsTree.discover (is_new : Bool) : Nat → MctsTree → Option NodeId → MctsTree
  | _, t, none => t
  | 0, t, some _ => t
  | fuel + 1, t, some v =>
    (t.modify v fun d => { d with discovered := d.discovered + is_new.toUInt32 }).discover is_new fuel
      (t.nodes[v]?.bind GNode.parent)

/-- The tree, the position and the flags after both rounds of `Expansion`. -/
def MctsTree.walk (t : MctsTree) (q : queue_entry) (response_codes : List UInt32) : Walk :=
  visit_all q response_codes 1 response_codes.tail (Walk.start (t.seed ROOT q 0) ROOT)

/-- What the second round reads, iteration by iteration, is there. Each iteration is about the
walk that the earlier ones have led to. -/
def visit_reads (q : queue_entry) (response_codes : List UInt32) : Nat → List UInt32 → Walk → Prop
  | _, [], _ => True
  | path_index, code :: codes, s =>
    s.Reads q response_codes path_index code ∧
      visit_reads q response_codes (path_index + 1) codes (visit q response_codes path_index code s)

/-- Both rounds find what they read: the array of region 0 has as many codes as the path of the
SimNode of the root, and the second round has what it reads. -/
structure MctsTree.RoundsRead (t : MctsTree) (q : queue_entry) (response_codes : List UInt32) : Prop where
  root_region : ∀ (r m : GNode) (s : NodeId) (region : region_t), t.nodes[ROOT]? = some r →
    r.data.simulation_child = some s → t.nodes[s]? = some m → q.regions[0]? = some region →
    m.data.path_len ≤ (region.state_sequence.getD []).length
  rounds : visit_reads q response_codes 1 response_codes.tail (Walk.start (t.seed ROOT q 0) ROOT)

/-- Everything that `Expansion` reads of the regions and of the response is there. The log line
about the last region reads as many codes as the response has. -/
structure MctsTree.Reads (t : MctsTree) (q : queue_entry) (response_codes : List UInt32) : Prop
    extends t.RoundsRead q response_codes where
  last_region : ∀ region, q.live_regions.getLast? = some region →
    response_codes.length ≤ (region.state_sequence.getD []).length

/-- `expansion_epilogue` as a function: the last node is marked if it is a leaf, and the
discovery is counted on the way up. -/
def MctsTree.finish (t : MctsTree) (v : NodeId) (new_path : Bool) : MctsTree :=
  let marked := t.modify v fun d => { d with fully_explored := t.leaf v }
  marked.discover new_path (marked.nodes.length + 1) (some v)

/-- `Expansion` from the root, as a function. It says what is computed where nothing is read out
of bounds and no assertion fails. -/
def MctsTree.expand (t : MctsTree) (q : queue_entry) (response_codes : List UInt32) : MctsTree × NodeId × Bool :=
  let new_path := t.missing ROOT response_codes.tail
  let s := t.walk q response_codes
  (s.tree.finish s.tree_node new_path, s.tree_node, new_path)

namespace Linked

variable {t : MctsTree}

/-- The first round follows existing children and reports whether it has got to the end. -/
theorem first_round_eq (h : Linked t) {v : NodeId} {n : GNode} (hv : t.nodes[v]? = some n) (codes : List UInt32) :
    first_round t v codes = pure (t.missing v codes) := by
  induction codes generalizing v n with
  | nil => rfl
  | cons code codes ih =>
    rw [first_round, h.exists_child_eq hv, pure_bind, MctsTree.missing]
    cases hc : t.child_with_id v code with
    | none => rfl
    | some c =>
      obtain ⟨_, m, hm, _⟩ := h.child_with_id_spec hv hc
      exact ih hm

theorem is_leaf_eq (h : Linked t) {v : NodeId} {n : GNode} (hv : t.nodes[v]? = some n) :
    is_leaf t v = pure (t.leaf v) := by
  rw [is_leaf, deref_eq hv, pure_bind, MctsTree.leaf, hv, Option.any_some]
  match hch : n.children with
  | [] => rfl
  | [child] =>
    obtain ⟨m, hm, _⟩ := h.child (c := child) hv (by simp [hch])
    simp only [get_tree_node_data_eq hm, pure_bind, MctsTree.colour?_eq hm, Option.some.injEq]
  | _ :: _ :: _ => rfl

/-- The upward walk ends at the root: parents are older than their children. -/
theorem propagate_discovered_eq (h : Linked t) (is_new : Bool) {fuel : Nat} {v : NodeId} {n : GNode}
    (hv : t.nodes[v]? = some n) (hfuel : v < fuel) :
    propagate_discovered is_new fuel t (some v) = pure (t.discover is_new fuel (some v)) := by
  induction fuel generalizing t v n with
  | zero => exact absurd hfuel (Nat.not_lt_zero v)
  | succ fuel ih =>
    have hmodified := MctsTree.getElem?_modify_self hv fun d => { d with discovered := d.discovered + is_new.toUInt32 }
    rw [propagate_discovered, set_tree_node_data_eq hv, pure_bind, deref_eq hmodified, pure_bind,
      MctsTree.discover, hv, Option.bind_some]
    cases hp : n.parent with
    | none =>
      rw [MctsTree.discover]
      cases fuel <;> rfl
    | some u =>
      obtain ⟨m, hm, hlt, _⟩ := h.exists_parent hv hp
      exact ih (h.modify hv rfl rfl) (by rw [MctsTree.getElem?_modify_ne t (Nat.ne_of_gt hlt), hm])
        (Nat.lt_of_lt_of_le hlt (Nat.le_of_lt_succ hfuel))

end Linked

/-- Running the second round is `visit_all`. -/
theorem second_round_holds {q : queue_entry} {response_codes : List UInt32} (new_path : Bool)
    {path_index : Nat} {codes : List UInt32} (hcodes : codes <+: response_codes.drop path_index) {s : Walk}
    (h : s.Ready q) :
    Guarded (visit_reads q response_codes path_index codes s) MayFail OutOfBounds
      (second_round q response_codes new_path path_index codes s) (fun s' =>
      s' = visit_all q response_codes path_index codes s) ∧
    (visit_all q response_codes path_index codes s).Ready q ∧
    (codes ≠ [] ∨ s.tree_node ≠ ROOT → (visit_all q response_codes path_index codes s).tree_node ≠ ROOT) := by
  induction codes generalizing path_index s with
  | nil => exact ⟨Guarded.pure trivial rfl, h, fun hor => hor.resolve_left (fun hne => hne rfl)⟩
  | cons code codes ih =>
    obtain ⟨rest, hsplit⟩ := hcodes
    have hcode : response_codes[path_index]? = some code := by
      rw [← List.head?_drop, ← hsplit]
      rfl
    have hrest : codes <+: response_codes.drop (path_index + 1) := by
      rw [← List.tail_drop, ← hsplit]
      exact ⟨rest, rfl⟩
    obtain ⟨hstep, hready, hnode⟩ := second_round_step_holds h new_path hcode
    obtain ⟨hround, hready', hnode'⟩ := ih hrest hready
    refine ⟨?_, hready', fun _ => hnode' (Or.inr hnode)⟩
    rw [second_round, visit_all, visit_reads]
    apply hstep.bind
    rintro s' rfl
    exact hround

namespace Linked

variable {t : MctsTree}

/-- Before the second round the walk is at the root, and the first region is the one to begin
with. -/
theorem start_ready (h : Linked t) {q : queue_entry} (hregions : 0 < q.region_count) :
    (Walk.start (t.seed ROOT q 0) ROOT).Ready q := by
  obtain ⟨r, hr, _⟩ := h.root
  exact ⟨h.seed ROOT q 0, by simpa [Walk.start] using MctsTree.lt_of_getElem? hr, hregions⟩

/-- After both rounds it is at a node of the tree, which is not the root if the response has a
second code. -/
theorem walk_ready (h : Linked t) {q : queue_entry} (hregions : 0 < q.region_count) (response_codes : List UInt32) :
    (t.walk q response_codes).Ready q ∧
      (2 ≤ response_codes.length → (t.walk q response_codes).tree_node ≠ ROOT) := by
  obtain ⟨_, hready, hnode⟩ := second_round_holds false
    (show response_codes.tail <+: response_codes.drop 1 by simp) (h.start_ready hregions)
  refine ⟨hready, fun hlen => hnode (Or.inl ?_)⟩
  intro hnil
  have := congrArg List.length hnil
  simp at this
  omega

/-- The reads of the seed for the SimNode of the root. -/
theorem root_region_iff {q : queue_entry} (hregions : 0 < q.regions.length) {r m : GNode} {s : NodeId}
    (hr : t.nodes[ROOT]? = some r) (hsim : r.data.simulation_child = some s) (hs : t.nodes[s]? = some m)
    (response_codes : List UInt32) :
    m.data.path_len ≤ (q.regions[0].state_sequence.getD []).length ∧
      visit_reads q response_codes 1 response_codes.tail (Walk.start (t.seed ROOT q 0) ROOT) ↔
    t.RoundsRead q response_codes := by
  constructor
  · rintro ⟨hlen, hrounds⟩
    refine ⟨?_, hrounds⟩
    intro r' m' s' region hr' hsim' hs' hregion
    rw [hr] at hr'
    cases hr'
    rw [hsim] at hsim'
    cases hsim'
    rw [hs] at hs'
    cases hs'
    rw [List.getElem?_eq_getElem hregions] at hregion
    cases hregion
    exact hlen
  · intro hreads
    exact ⟨hreads.root_region r m s _ hr hsim hs (List.getElem?_eq_getElem hregions), hreads.rounds⟩

/-- Both rounds return the walk as a function. They read past an array exactly if `RoundsRead`
fails, and no assertion fails but those of `get_simulation_child`. -/
theorem expansion_rounds_hold (h : Linked t) {q : queue_entry} (hregions : 0 < q.region_count)
    (response_codes : List UInt32) :
    Guarded (t.RoundsRead q response_codes) MayFail OutOfBounds (expansion_rounds t ROOT q response_codes) fun r =>
      r = (t.walk q response_codes, t.missing ROOT response_codes.tail) := by
  obtain ⟨r, hr, _, hwhite⟩ := h.root
  obtain ⟨s, m, hsim, hs, _, hget⟩ := h.get_simulation_child_eq hr hwhite
  have hrange := Nat.lt_of_lt_of_le hregions q.allocated
  rw [expansion_rounds, h.first_round_eq hr, pure_bind, get_tree_node_data_eq hr, pure_bind]
  apply Guarded.bind_holds (log_assert_holds (by simp [MayFail, OutOfBounds]))
  intro _ _
  rw [hget, pure_bind]
  refine Guarded.congr ((Linked.add_seed_to_node_holds hs hrange).bind ?_) (root_region_iff hrange hr hsim hs response_codes)
  rintro seeded rfl
  rw [← MctsTree.seed_eq hr hsim]
  have hround := (second_round_holds (t.missing ROOT response_codes.tail)
    (show response_codes.tail <+: response_codes.drop 1 by simp) (h.start_ready hregions)).1
  refine (hround.bind ?_).congr (and_iff_left trivial)
  rintro w rfl
  exact Guarded.pure trivial rfl

/-- Below the root the epilogue always has a parent to look at. -/
theorem expansion_epilogue_eq (h : Linked t) {v : NodeId} (hv : v < t.nodes.length) (hroot : v ≠ ROOT)
    (new_path : Bool) : expansion_epilogue t v new_path = pure (t.finish v new_path) := by
  obtain ⟨n, hn⟩ := MctsTree.getElem?_of_lt hv
  have hmarked := MctsTree.getElem?_modify_self hn fun d => { d with fully_explored := t.leaf v }
  have hlinked : Linked (t.modify v fun d => { d with fully_explored := t.leaf v }) := h.modify hn rfl rfl
  obtain ⟨u, m, hparent, _, hm, _⟩ := hlinked.parent hmarked hroot
  rw [expansion_epilogue, h.is_leaf_eq hn, pure_bind, set_tree_node_data_eq hn, pure_bind, deref_eq hmarked,
    pure_bind]
  dsimp only at hparent ⊢
  rw [hparent]
  dsimp only
  rw [deref_eq hm, pure_bind,
    hlinked.propagate_discovered_eq new_path hmarked (by simpa using Nat.lt_succ_of_lt hv)]
  rfl

/-- At the root the epilogue reads through a NULL pointer. -/
theorem expansion_epilogue_root (h : Linked t) (new_path : Bool) :
    expansion_epilogue t ROOT new_path = fail .null_dereference := by
  obtain ⟨r, hr, hparent, _⟩ := h.root
  have hmarked := MctsTree.getElem?_modify_self hr fun d => { d with fully_explored := t.leaf ROOT }
  rw [expansion_epilogue, h.is_leaf_eq hr, pure_bind, set_tree_node_data_eq hr, pure_bind, deref_eq hmarked,
    pure_bind]
  dsimp only
  rw [hparent]

/-- On a coherent tree `Expansion` computes `expand` whenever the response has a
second code. -/
theorem expansion_holds (h : Linked t) {q : queue_entry} (hregions : 0 < q.region_count)
    {response_codes : List UInt32} (hlen : 2 ≤ response_codes.length) :
    Guarded (t.Reads q response_codes) MayFail OutOfBounds (Expansion t ROOT q response_codes) fun r =>
      r = t.expand q response_codes := by
  have hlast : ∃ last_region, q.live_regions.getLast? = some last_region := by
    apply Option.isSome_iff_exists.mp
    rw [List.getLast?_isSome]
    intro hnil
    have := congrArg List.length hnil
    simp at this
    omega
  obtain ⟨last_region, hlast⟩ := hlast
  cases response_codes with
  | nil => simp at hlen
  | cons first_code codes =>
    rw [Expansion, hlast, List.head?_cons]
    dsimp only
    apply Guarded.bind_holds (log_assert_holds (by simp [MayFail, OutOfBounds]))
    intro _ _
    have hsplit : (first_code :: codes).length ≤ (last_region.state_sequence.getD []).length ∧
        ((first_code :: codes).length ≤ 4 * (last_region.state_sequence.getD []).length ∧
          (first_code :: codes).length ≤ 4 * (first_code :: codes).length) ∧ t.RoundsRead q (first_code :: codes) ↔
        t.Reads q (first_code :: codes) := by
      constructor
      · rintro ⟨hregion, _, hrounds⟩
        refine ⟨hrounds, fun region hfound => ?_⟩
        rw [hlast] at hfound
        cases hfound
        exact hregion
      · intro hreads
        have hregion := hreads.last_region _ hlast
        exact ⟨hregion, ⟨by omega, by omega⟩, hreads.toRoundsRead⟩
    refine Guarded.congr ((read_states_guarded _ _).bind fun _ _ => (memcmp_guarded _ _ _).bind fun _ _ => ?_) hsplit
    apply Guarded.bind_holds (log_assert_holds (by simp [MayFail, OutOfBounds]))
    intro _ _
    apply Guarded.bind_holds (log_assert_holds (by simp [MayFail, OutOfBounds]))
    intro _ _
    refine ((h.expansion_rounds_hold hregions _).bind ?_).congr (and_iff_left trivial)
    rintro _ rfl
    obtain ⟨hready, hnode⟩ := h.walk_ready hregions (first_code :: codes)
    dsimp only
    rw [hready.linked.expansion_epilogue_eq hready.present (hnode hlen), pure_bind]
    exact Guarded.pure trivial rfl

end Linked

end aflnet.mcts
