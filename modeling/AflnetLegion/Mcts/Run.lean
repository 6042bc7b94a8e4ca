import AflnetLegion.Mcts.Expand
import AflnetLegion.Mcts.Selection

open Checked

namespace aflnet.mcts

/-- One completed call of `Expansion` and the `*new_path` it reported. -/
structure Call where
  q : queue_entry
  response_codes : List UInt32
  new_path : Bool

/-- The trees the fuzzer can build: `Initialisation`, then any interleaving of
`Expansion` calls whose arguments satisfy `Ok`, of completed `select_tree_node`
calls and of `Propagation` calls on SimNodes. The index lists the `Expansion`
calls in order. Failed assertions may abort a call or not. -/
inductive Run (Ok : MctsTree → queue_entry → List UInt32 → Prop) : List Call → MctsTree → Prop where
  | init {t : MctsTree} (h : Returns Initialisation t) : Run Ok [] t
  | expansion {calls : List Call} {t t' : MctsTree} {q : queue_entry} {response_codes : List UInt32} {v : NodeId}
      {new_path : Bool} (run : Run Ok calls t) (ok : Ok t q response_codes)
      (h : Returns (Expansion t ROOT q response_codes) (t', v, new_path)) :
      Run Ok (calls ++ [⟨q, response_codes, new_path⟩]) t'
  | selection {calls : List Call} {t : MctsTree} {oracles : Nat → Oracle} {fuel : Nat} {s : Selecting}
      (run : Run Ok calls t) (h : Returns (select_tree_node oracles fuel t ROOT) s) (hdone : s.pc = .done) :
      Run Ok calls s.tree
  | propagation {calls : List Call} {t t' : MctsTree} {v : NodeId} {seed_selected : Option Nat} {is_new : Bool}
      (run : Run Ok calls t) (hgolden : t.colour? v = some .Golden)
      (h : Returns (Propagation t v seed_selected is_new) t') : Run Ok calls t'

/-- The tree `Initialisation` builds: the root and its SimNode, which point to each other. -/
def MctsTree.initial : MctsTree :=
  { nodes := [
      { data := { TreeNodeData.fresh 0 .White [0] with simulation_child := some 1 }, parent := none, children := [1] },
      { data := .fresh 999 .Golden [0], parent := some ROOT, children := [] }] }

/-- `Initialisation` builds the initial tree without a failed assertion. -/
theorem Initialisation_eq : Initialisation = pure .initial := rfl

/-- An assignment that keeps one aspect of the node it changes. -/
theorem returns_set_tree_node_data {α : Type} {aspect : GNode → α} {t t' : MctsTree} {v : NodeId}
    {f : TreeNodeData → TreeNodeData} (hf : ∀ n : GNode, aspect { n with data := f n.data } = aspect n)
    (h : Returns (set_tree_node_data t v f) t') : MctsTree.SameBy aspect t t' := by
  cases hn : t.nodes[v]? with
  | none =>
    simp only [set_tree_node_data, deref, hn, fail_bind] at h
    exact absurd h not_returns_fail
  | some n =>
    rw [set_tree_node_data_eq hn] at h
    rw [returns_pure h]
    exact MctsTree.SameBy.modify hn (hf n)

/-- A selection step changes counters and flags only. -/
theorem returns_select_step {o : Oracle} {s s' : Selecting} (h : Returns (select_step o s) s') :
    MctsTree.SameBy GNode.skeleton s.tree s'.tree := by
  rw [select_step] at h
  cases hpc : s.pc with
  | descend =>
    rw [hpc] at h
    obtain ⟨d, _, h⟩ := returns_bind h
    split at h
    · rw [returns_pure h]
      exact MctsTree.SameBy.refl _
    · obtain ⟨best, _, h⟩ := returns_bind h
      obtain ⟨t, ht, h⟩ := returns_bind h
      obtain ⟨score, _, h⟩ := returns_bind h
      obtain ⟨n, _, h⟩ := returns_bind h
      obtain ⟨black, _, h⟩ := returns_bind h
      obtain ⟨_, _, h⟩ := returns_bind h
      rw [returns_pure h]
      exact returns_set_tree_node_data (fun _ => rfl) ht
  | backtrack =>
    rw [hpc] at h
    obtain ⟨score, _, h⟩ := returns_bind h
    split at h
    · obtain ⟨n, _, h⟩ := returns_bind h
      obtain ⟨_, _, h⟩ := returns_bind h
      cases hparent : n.parent with
      | none =>
        rw [hparent] at h
        exact absurd h not_returns_fail
      | some parent =>
        rw [hparent] at h
        obtain ⟨explored, _, h⟩ := returns_bind h
        split at h
        · obtain ⟨t, ht, h⟩ := returns_bind h
          rw [returns_pure h]
          exact returns_set_tree_node_data (fun _ => rfl) ht
        · rw [returns_pure h]
          exact MctsTree.SameBy.refl _
    · rw [returns_pure h]
      exact MctsTree.SameBy.refl _
  | resume =>
    rw [hpc] at h
    obtain ⟨score, _, h⟩ := returns_bind h
    obtain ⟨_, _, h⟩ := returns_bind h
    rw [returns_pure h]
    exact MctsTree.SameBy.refl _
  | done =>
    rw [hpc] at h
    rw [returns_pure h]
    exact MctsTree.SameBy.refl _

/-- Any number of selection steps change counters and flags only. -/
theorem returns_select_loop {oracles : Nat → Oracle} {fuel : Nat} {s s' : Selecting}
    (h : Returns (select_loop oracles fuel s) s') : MctsTree.SameBy GNode.skeleton s.tree s'.tree := by
  induction fuel generalizing oracles s with
  | zero =>
    rw [returns_pure h]
    exact MctsTree.SameBy.refl _
  | succ fuel ih =>
    obtain ⟨middle, hstep, hrest⟩ := returns_bind h
    exact (returns_select_step hstep).trans (ih hrest)

/-- The same for `select_tree_node`, whatever the oracles say. -/
theorem returns_select_tree_node {oracles : Nat → Oracle} {fuel : Nat} {t : MctsTree} {v : NodeId} {s : Selecting}
    (h : Returns (select_tree_node oracles fuel t v) s) : MctsTree.SameBy GNode.skeleton t s.tree := by
  obtain ⟨t', ht, hloop⟩ := returns_bind h
  have hcount : MctsTree.SameBy GNode.skeleton t t' := returns_set_tree_node_data (fun _ => rfl) ht
  exact hcount.trans (returns_select_loop hloop)

theorem returns_propagation {t t' : MctsTree} {v : NodeId} {seed_selected : Option Nat} {is_new : Bool}
    (h : Returns (Propagation t v seed_selected is_new) t') : MctsTree.SameBy GNode.skeleton t t' := by
  apply returns_set_tree_node_data _ h
  intro n
  have hseeds : (n.data.seeds.mapIdx fun i seed =>
      if seed_selected = some i then { seed with discovered := seed.discovered + is_new.toUInt32 } else seed).map
        (fun seed => (seed.q, seed.parent_index)) = n.data.seeds.map fun seed => (seed.q, seed.parent_index) := by
    apply List.ext_getElem?
    intro i
    rw [List.getElem?_map, List.getElem?_mapIdx, List.getElem?_map]
    cases n.data.seeds[i]? with
    | none => rfl
    | some seed => by_cases hi : seed_selected = some i <;> simp [hi]
  simp only [GNode.skeleton, GNode.links, hseeds]

/-- `propagate_discovered` keeps what does not depend on the counter. -/
theorem MctsTree.discover_keeps {α : Type} {aspect : GNode → α}
    (hf : ∀ (n : GNode) (k : UInt32), aspect { n with data := { n.data with discovered := k } } = aspect n)
    (is_new : Bool) (fuel : Nat) (t : MctsTree) (v : Option NodeId) : SameBy aspect t (t.discover is_new fuel v) := by
  induction fuel generalizing t v with
  | zero => cases v <;> exact SameBy.refl t
  | succ fuel ih =>
    cases v with
    | none => exact SameBy.refl t
    | some v =>
      rw [MctsTree.discover]
      refine SameBy.trans ?_ (ih _ _)
      intro u
      rw [MctsTree.getElem?_modify]
      cases t.nodes[u]? with
      | none => rfl
      | some n => by_cases hvu : v = u <;> simp [hvu, hf]

theorem MctsTree.discover_same (is_new : Bool) (fuel : Nat) (t : MctsTree) (v : Option NodeId) :
    SameBy GNode.skeleton t (t.discover is_new fuel v) :=
  MctsTree.discover_keeps (fun _ _ => rfl) is_new fuel t v

theorem MctsTree.finish_same {t : MctsTree} {v : NodeId} (hv : v < t.nodes.length) (new_path : Bool) :
    SameBy GNode.skeleton t (t.finish v new_path) := by
  obtain ⟨n, hn⟩ := MctsTree.getElem?_of_lt hv
  rw [MctsTree.finish]
  exact (SameBy.modify hn rfl).trans (MctsTree.discover_same _ _ _ _)

namespace Linked

variable {t : MctsTree}

/-- `Expansion` keeps the pointers coherent, whatever codes the response has. -/
theorem expand (h : Linked t) {q : queue_entry} (hregions : 0 < q.region_count) (response_codes : List UInt32) :
    Linked (t.expand q response_codes).1 := by
  have hready := (h.walk_ready hregions response_codes).1
  exact hready.linked.of_links (MctsTree.finish_same hready.present _).links

/-- `Expansion` returns only if it has a region to look at and a second code to
walk to. -/
theorem returns_expansion (h : Linked t) {q : queue_entry} {response_codes : List UInt32}
    {r : MctsTree × NodeId × Bool} (hret : Returns (Expansion t ROOT q response_codes) r) :
    0 < q.region_count ∧ 2 ≤ response_codes.length ∧ r = t.expand q response_codes := by
  have hregions : 0 < q.region_count := by
    by_contra hzero
    have hnil : q.live_regions = [] := List.eq_nil_of_length_eq_zero (by simp; omega)
    rw [Expansion, hnil] at hret
    exact not_returns_fail hret
  have hlen : 2 ≤ response_codes.length := by
    by_contra hshort
    rw [Expansion] at hret
    rcases response_codes with _ | ⟨code, _ | ⟨next, codes⟩⟩
    · split at hret
      · rename_i hnone
        cases hnone
      · exact not_returns_fail hret
    · split at hret
      · obtain ⟨_, _, hret⟩ := returns_bind hret
        obtain ⟨_, _, hret⟩ := returns_bind hret
        obtain ⟨_, _, hret⟩ := returns_bind hret
        obtain ⟨_, _, hret⟩ := returns_bind hret
        obtain ⟨_, _, hret⟩ := returns_bind hret
        obtain ⟨rounds, hrounds, hret⟩ := returns_bind hret
        rw [(h.expansion_rounds_hold hregions [code]).holds.of_returns hrounds] at hret
        obtain ⟨_, hepilogue, _⟩ := returns_bind hret
        have hlinked : Linked (t.walk q [code]).tree := (h.walk_ready hregions [code]).1.linked
        rw [show (t.walk q [code]).tree_node = ROOT from rfl, hlinked.expansion_epilogue_root] at hepilogue
        exact not_returns_fail hepilogue
      · exact not_returns_fail hret
    · simp at hshort
  exact ⟨hregions, hlen, (h.expansion_holds hregions hlen).holds.of_returns hret⟩

/-- On a coherent tree `Expansion` returns when failed assertions are ignored. -/
theorem expansion_returns (h : Linked t) {q : queue_entry} (hregions : 0 < q.region_count)
    {response_codes : List UInt32} (hlen : 2 ≤ response_codes.length) :
    Returns (Expansion t ROOT q response_codes) (t.expand q response_codes) :=
  (h.expansion_holds hregions hlen).holds.returns_eq

end Linked

theorem linked_initial : Linked .initial := by
  constructor
  · exact ⟨_, rfl, rfl, rfl⟩
  · intro v n hv hne
    match v with
    | 0 => exact absurd rfl hne
    | 1 =>
      cases hv
      exact ⟨ROOT, _, rfl, Nat.zero_lt_one, rfl, List.mem_singleton.mpr rfl⟩
    | v + 2 => cases hv
  · intro v c n hv hc
    match v with
    | 0 =>
      cases hv
      cases List.mem_singleton.mp hc
      exact ⟨_, rfl, rfl⟩
    | 1 =>
      cases hv
      cases hc
    | v + 2 => cases hv
  · intro v n hv
    match v with
    | 0 =>
      cases hv
      simp
    | 1 =>
      cases hv
      exact List.nodup_nil
    | v + 2 => cases hv
  · intro v n hv hwhite
    match v with
    | 0 =>
      cases hv
      exact ⟨1, _, rfl, rfl, rfl⟩
    | 1 =>
      cases hv
      cases hwhite
    | v + 2 => cases hv

/-- A property of the skeleton that holds initially and is kept by `expand` holds
after every run. -/
theorem Run.skeleton_invariant {Ok : MctsTree → queue_entry → List UInt32 → Prop}
    {I : List Call → MctsTree → Prop} (hinit : I [] .initial)
    (hexpand : ∀ calls t q response_codes, Linked t → I calls t → Ok t q response_codes → 0 < q.region_count →
      2 ≤ response_codes.length →
      I (calls ++ [⟨q, response_codes, t.missing ROOT response_codes.tail⟩]) (t.expand q response_codes).1)
    (hsame : ∀ calls t t', I calls t → MctsTree.SameBy GNode.skeleton t t' → I calls t')
    {calls : List Call} {t : MctsTree} (hrun : Run Ok calls t) : Linked t ∧ I calls t := by
  induction hrun with
  | init h =>
    rw [Initialisation_eq] at h
    rw [returns_pure h]
    exact ⟨linked_initial, hinit⟩
  | @expansion calls t t' q response_codes v new_path _ ok h ih =>
    obtain ⟨hregions, hlen, heq⟩ := ih.1.returns_expansion h
    cases heq
    exact ⟨ih.1.expand hregions response_codes, hexpand _ _ _ _ ih.1 ih.2 ok hregions hlen⟩
  | selection _ h _ ih =>
    have hsel := returns_select_tree_node h
    exact ⟨ih.1.of_links hsel.links, hsame _ _ _ ih.2 hsel⟩
  | propagation _ _ h ih =>
    have hprop := returns_propagation h
    exact ⟨ih.1.of_links hprop.links, hsame _ _ _ ih.2 hprop⟩

/-- Every tree of a run is coherent, whatever codes the server returned. -/
theorem Run.linked {Ok : MctsTree → queue_entry → List UInt32 → Prop} {calls : List Call} {t : MctsTree}
    (hrun : Run Ok calls t) : Linked t :=
  (hrun.skeleton_invariant (I := fun _ _ => True) trivial (fun _ _ _ _ _ _ _ _ _ => trivial)
    (fun _ _ _ _ _ => trivial)).1

theorem Run.initial {Ok : MctsTree → queue_entry → List UInt32 → Prop} : Run Ok [] .initial :=
  .init ⟨true, [], [], rfl⟩

/-- Every run can be continued by an admitted call. -/
theorem Run.expand {Ok : MctsTree → queue_entry → List UInt32 → Prop} {calls : List Call} {t : MctsTree}
    (hrun : Run Ok calls t) {q : queue_entry} {response_codes : List UInt32} (ok : Ok t q response_codes)
    (hregions : 0 < q.region_count) (hlen : 2 ≤ response_codes.length) :
    Run Ok (calls ++ [⟨q, response_codes, t.missing ROOT response_codes.tail⟩]) (t.expand q response_codes).1 :=
  .expansion hrun ok (hrun.linked.expansion_returns hregions hlen)

end aflnet.mcts
