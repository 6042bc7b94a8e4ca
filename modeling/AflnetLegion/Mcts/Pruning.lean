import Mathlib.Logic.Relation
import AflnetLegion.Mcts.Descent

open Checked

namespace aflnet.mcts

namespace MctsTree

variable {t t' : MctsTree} {v p : NodeId}

/-- An assignment to counters. -/
theorem dead_modify_counter (t : MctsTree) (c : NodeId) (f : TreeNodeData → TreeNodeData)
    (hf : ∀ n : GNode, GNode.dead { n with data := f n.data } = n.dead) (v : NodeId) :
    (t.modify c f).Dead v ↔ t.Dead v := by
  rw [Dead, Dead, getElem?_modify]
  cases t.nodes[v]? with
  | none => rfl
  | some n => by_cases hcv : c = v <;> simp [hcv, hf]

/-- Setting the flag of one node. -/
theorem dead_modify_flag {m : GNode} (hp : t.nodes[p]? = some m) (v : NodeId) :
    (t.modify p fun d => { d with fully_explored := true }).Dead v ↔ v = p ∨ t.Dead v := by
  by_cases hpv : p = v
  · subst hpv
    rw [Dead, getElem?_modify_self hp]
    simp [GNode.dead]
  · rw [Dead, Dead, getElem?_modify_ne t hpv]
    exact ⟨Or.inr, fun hor => hor.resolve_left (Ne.symm hpv)⟩

theorem SameBy.modify_counter (t : MctsTree) (c : NodeId) (f : TreeNodeData → TreeNodeData)
    (hf : ∀ n : GNode, GNode.skeleton { n with data := f n.data } = n.skeleton) :
    SameBy GNode.skeleton t (t.modify c f) := by
  intro v
  rw [getElem?_modify]
  cases t.nodes[v]? with
  | none => rfl
  | some n => by_cases hcv : c = v <;> simp [hcv, hf]

end MctsTree

theorem SelectStep.same {ignore : Bool} {s s' : Selecting} (h : SelectStep ignore s s') :
    MctsTree.SameBy GNode.skeleton s.tree s'.tree := by
  cases h with
  | down => exact MctsTree.SameBy.modify_counter _ _ _ fun _ => rfl
  | mark => exact MctsTree.SameBy.modify_counter _ _ _ fun _ => rfl
  | _ => exact MctsTree.SameBy.refl _

/-- The states `select_tree_node` passes, with failed assertions ignored or not. -/
def SelectSteps (ignore : Bool) : Selecting → Selecting → Prop := Relation.ReflTransGen (SelectStep ignore)

theorem SelectSteps.same {ignore : Bool} {s s' : Selecting} (h : SelectSteps ignore s s') :
    MctsTree.SameBy GNode.skeleton s.tree s'.tree := by
  induction h with
  | refl => exact MctsTree.SameBy.refl _
  | tail _ hstep ih => exact ih.trans hstep.same

/-- A loop that returns has taken steps, each with some oracle. -/
theorem select_loop_steps {oracles : Nat → Oracle} {fuel : Nat} {s s' : Selecting} (h : Linked s.tree) {ignore : Bool}
    {log final : List Assertion} (hloop : select_loop oracles fuel s ignore log = .ok (s', final)) :
    SelectSteps ignore s s' := by
  induction fuel generalizing oracles s log with
  | zero =>
    cases hloop
    exact .refl
  | succ fuel ih =>
    obtain ⟨middle, log', hstep, hrest⟩ := bind_eq_ok_iff.mp hloop
    have hfirst := select_step_cases h hstep
    exact .head hfirst (ih (h.of_links hfirst.same.links) hrest)

/-- The state in which `select_tree_node` enters its loop. -/
def Selecting.start (t : MctsTree) : Selecting :=
  { pc := .descend, tree_node := ROOT, tree := t.modify ROOT fun d => { d with selected := d.selected + 1 } }

theorem select_tree_node_eq {t : MctsTree} (h : Linked t) (oracles : Nat → Oracle) (fuel : Nat) :
    select_tree_node oracles fuel t ROOT = select_loop oracles fuel (.start t) := by
  obtain ⟨r, hr, _⟩ := h.root
  rw [select_tree_node, set_tree_node_data_eq hr, pure_bind]
  rfl

/-- A call of `select_tree_node` that returns has taken steps from the root on, each with some
oracle. -/
theorem select_tree_node_steps {oracles : Nat → Oracle} {fuel : Nat} {t : MctsTree} (h : Linked t) {ignore : Bool}
    {log final : List Assertion} {s : Selecting}
    (hselect : select_tree_node oracles fuel t ROOT ignore log = .ok (s, final)) :
    SelectSteps ignore (Selecting.start t) s := by
  rw [select_tree_node_eq h] at hselect
  exact select_loop_steps (h.of_links (MctsTree.SameBy.modify_counter _ _ _ fun _ => rfl).links) hselect

/-- A subtree that selection can only flag: a dead node, or a Black node with
children, all of them exhausted. -/
inductive Exhausted (t : MctsTree) : NodeId → Prop where
  | dead {v : NodeId} (h : t.Dead v) : Exhausted t v
  | black {v : NodeId} {n : GNode} (hv : t.nodes[v]? = some n) (hblack : n.data.colour = .Black)
      (hne : n.children ≠ []) (hall : ∀ c ∈ n.children, Exhausted t c) : Exhausted t v

/-- The nodes selection can get to: no ancestor is dead, and none is a SimNode. Such a node may
be dead itself. -/
inductive Reached (t : MctsTree) : NodeId → Prop where
  | root : Reached t ROOT
  | child {u c : NodeId} {n : GNode} (hu : Reached t u) (hlive : ¬ t.Dead u) (hn : t.nodes[u]? = some n)
      (hresponse : n.data.colour ≠ .Golden) (hc : c ∈ n.children) : Reached t c

namespace Reached

variable {t t' : MctsTree} {v p : NodeId}

/-- It depends on the ancestors only. -/
theorem transfer (h : Linked t) (hsame : MctsTree.SameBy GNode.links t t')
    (hlive : ∀ u, u < v → ¬ t.Dead u → ¬ t'.Dead u) (hv : Reached t v) : Reached t' v := by
  induction hv with
  | root => exact .root
  | @child u c n hu hulive hn hresponse hc ih =>
    have hlt : u < c := h.parent_lt_child hn hc
    obtain ⟨n', hn', hlinks⟩ := hsame.exists_node hn
    refine .child (ih fun w hw => hlive w (Nat.lt_trans hw hlt)) (hlive u hlt hulive) hn' ?_ ?_
    · rw [GNode.colour_of_links hlinks]
      exact hresponse
    · rw [GNode.children_of_links hlinks]
      exact hc

theorem present (h : Linked t) (hv : Reached t v) : ∃ n, t.nodes[v]? = some n := by
  cases hv with
  | root =>
    obtain ⟨r, hr, _⟩ := h.root
    exact ⟨r, hr⟩
  | child _ _ hn _ hc => exact h.child_present hn _ hc

/-- The parent of such a node can be got to as well, and it is live. -/
theorem parent (h : Linked t) (hv : Reached t v) {n : GNode} (hn : t.nodes[v]? = some n) (hparent : n.parent = some p) :
    Reached t p ∧ ¬ t.Dead p := by
  cases hv with
  | root => exact absurd rfl (h.ne_root_of_parent hn hparent)
  | child hu hlive hm _ hc =>
    obtain ⟨k, hk, hkparent⟩ := h.child hm hc
    rw [hn] at hk
    cases hk
    rw [hparent] at hkparent
    cases hkparent
    exact ⟨hu, hlive⟩

end Reached

/-- Trees on which marking a Black node by its first child hides nothing: below a
live Black node that selection can reach, no exhausted child that gets the node
marked has a live sibling. -/
def Prunable (t : MctsTree) : Prop :=
  ∀ (v x d first : NodeId) (rest : List NodeId) (n : GNode), Reached t v → ¬ t.Dead v → t.nodes[v]? = some n →
    n.data.colour = .Black → n.children = first :: rest → x ∈ n.children → ¬ t.Dead x → Exhausted t x →
    (x = first ∨ t.Dead first) → d ∈ n.children → ¬ t.Dead d → d = x

/-- What selection on `t` has done to the tree so far. The marks it has set are on nodes that
`t` had exhausted, and where it stands is a node it can get to. -/
structure Explores (t : MctsTree) (s : Selecting) : Prop where
  same : MctsTree.SameBy GNode.skeleton t s.tree
  kept : ∀ v, t.Dead v → s.tree.Dead v
  sound : ∀ v, s.tree.Dead v → Exhausted t v
  here : Reached s.tree s.tree_node
  live : s.pc ≠ .backtrack → ¬ s.tree.Dead s.tree_node
  chosen : s.pc = .backtrack → t.Dead s.tree_node → ∀ (p : NodeId) (m : GNode), s.tree.nodes[p]? = some m →
    s.tree_node ∈ m.children → ∀ d ∈ m.children, s.tree.Dead d

namespace Explores

variable {t : MctsTree} {s s' : Selecting} {ignore : Bool}

theorem linked (h : Explores t s) (ht : Linked t) : Linked s.tree := ht.of_links h.same.links

/-- Selection does not get to a node that it could not get to at first, as marks only take ways
away. -/
theorem reached (h : Explores t s) (ht : Linked t) {v : NodeId} (hv : Reached s.tree v) : Reached t v :=
  hv.transfer (h.linked ht) h.same.symm.links fun u _ hlive hdead => hlive (h.kept u hdead)

/-- When a node is about to be marked, all its children are dead. -/
theorem mark_sound (h : Explores t s) (ht : Linked t) (hprune : ignore = false ∨ Prunable t)
    {n m : GNode} {p : NodeId} (hpc : s.pc = .backtrack) (hdead : s.tree.Dead s.tree_node)
    (hv : s.tree.nodes[s.tree_node]? = some n) (hparent : n.parent = some p) (hp : s.tree.nodes[p]? = some m)
    (hwhy : m.data.fully_explored = true ∨ (m.data.colour = .Black ∧ ∃ first rest, m.children = first :: rest ∧
      s.tree.Dead first ∧ (ignore = false → rest = []))) :
    m.data.colour = .Black ∧ m.children ≠ [] ∧ ∀ d ∈ m.children, s.tree.Dead d := by
  obtain ⟨hpreached, hplive⟩ := h.here.parent (h.linked ht) hv hparent
  have hunflagged : m.data.fully_explored ≠ true := by
    intro hflag
    refine hplive ((MctsTree.dead_iff hp).mpr ?_)
    rw [GNode.dead, hflag, Bool.true_or]
  obtain ⟨hblack, first, rest, hchildren, hfirst, honly⟩ := hwhy.resolve_left hunflagged
  refine ⟨hblack, by rw [hchildren]; exact List.cons_ne_nil _ _, ?_⟩
  intro d hd
  rcases hprune with hstrict | hprune
  · rw [hchildren, honly hstrict] at hd
    rw [List.mem_singleton.mp hd]
    exact hfirst
  · by_contra hdlive
    have hxmem := (h.linked ht).mem_children_of_parent hv hparent hp
    obtain ⟨m₀, hm₀, hchildren₀, hcolour₀, _⟩ := h.same.symm.links.exists_links hp
    have hblack₀ : m₀.data.colour = .Black := hcolour₀.trans hblack
    have hxlive : ¬ t.Dead s.tree_node := fun hx => hdlive (h.chosen hpc hx p m hp hxmem d hd)
    have hplive₀ : ¬ t.Dead p := fun hx => hplive (h.kept p hx)
    have hdlive₀ : ¬ t.Dead d := fun hx => hdlive (h.kept d hx)
    have hsibling : ∀ x, s.tree.Dead x → x ∈ m.children → ¬ t.Dead x → ¬ (x = first ∨ t.Dead first) := by
      intro x hx hmem hlive hcase
      have heq := hprune p x d first rest m₀ (h.reached ht hpreached) hplive₀ hm₀ hblack₀ (hchildren₀.trans hchildren)
        (by rw [hchildren₀]; exact hmem) hlive (h.sound x hx) hcase (by rw [hchildren₀]; exact hd) hdlive₀
      rw [heq] at hdlive
      exact hdlive hx
    by_cases hfirst₀ : t.Dead first
    · exact hsibling _ hdead hxmem hxlive (Or.inr hfirst₀)
    · exact hsibling first hfirst (by rw [hchildren]; exact List.mem_cons_self ..) hfirst₀ (Or.inl rfl)

/-- One step keeps what selection has done so far. A Black node is marked only if its single
child is dead, or if marking is sound anyway. -/
protected theorem step (h : Explores t s) (ht : Linked t) (hprune : ignore = false ∨ Prunable t)
    (hstep : SelectStep ignore s s') : Explores t s' := by
  cases hstep with
  | arrive hpc hv hgolden =>
    have hlive : ¬ s.tree.Dead s.tree_node := h.live (by rw [hpc]; exact fun hfalse => by cases hfalse)
    exact ⟨h.same, h.kept, h.sound, h.here, fun _ => hlive, fun hfalse => by cases hfalse⟩
  | @down n c hpc hv hresponse hc hbest =>
    have hlive : ¬ s.tree.Dead s.tree_node := h.live (by rw [hpc]; exact fun hfalse => by cases hfalse)
    have hsame := MctsTree.SameBy.modify_counter s.tree c (fun d => { d with selected := d.selected + 1 }) fun _ => rfl
    have hiff := MctsTree.dead_modify_counter s.tree c (fun d => { d with selected := d.selected + 1 }) fun _ => rfl
    refine ⟨h.same.trans hsame, fun v hv => (hiff v).mpr (h.kept v hv), fun v hv => h.sound v ((hiff v).mp hv), ?_,
      fun hfalse => absurd rfl hfalse, ?_⟩
    · exact (Reached.child h.here hlive hv hresponse hc).transfer (h.linked ht) hsame.links
        fun u _ hu hdead => hu ((hiff u).mp hdead)
    · intro _ hdead p m hp hmem d hd
      have hcdead : s.tree.Dead c := h.kept c hdead
      obtain ⟨m', hm', hchildren, _⟩ := hsame.symm.links.exists_links hp
      have hpeq : p = s.tree_node := by
        obtain ⟨k, hk, hkp⟩ := (h.linked ht).child hv hc
        obtain ⟨k', hk', hkp'⟩ := (h.linked ht).child hm' (by rw [hchildren]; exact hmem)
        rw [hk] at hk'
        cases hk'
        rw [hkp] at hkp'
        exact (Option.some.inj hkp').symm
      subst hpeq
      rw [hv] at hm'
      cases hm'
      exact (hiff d).mpr (hbest hcdead d (by rw [hchildren]; exact hd))
  | live hpc hlive =>
    exact ⟨h.same, h.kept, h.sound, h.here, fun _ => hlive, fun hfalse => by cases hfalse⟩
  | @mark n m p hpc hdead hv hparent hp hwhy =>
    obtain ⟨hblack, hne, hall⟩ := h.mark_sound ht hprune hpc hdead hv hparent hp hwhy
    obtain ⟨hpreached, hplive⟩ := h.here.parent (h.linked ht) hv hparent
    have hsame := MctsTree.SameBy.modify_counter s.tree p (fun d => { d with fully_explored := true }) fun _ => rfl
    have hiff := MctsTree.dead_modify_flag hp
    refine ⟨h.same.trans hsame, fun v hv => (hiff v).mpr (Or.inr (h.kept v hv)), ?_, ?_,
      fun hfalse => absurd rfl hfalse, ?_⟩
    · intro v hv
      rcases (hiff v).mp hv with rfl | hold
      · obtain ⟨m₀, hm₀, hchildren₀, hcolour₀, _⟩ := h.same.symm.links.exists_links hp
        refine .black hm₀ (hcolour₀.trans hblack) (by rw [hchildren₀]; exact hne) ?_
        intro c hc
        rw [hchildren₀] at hc
        exact h.sound c (hall c hc)
      · exact h.sound v hold
    · exact hpreached.transfer (h.linked ht) hsame.links fun u hu hlive hudead => by
        rcases (hiff u).mp hudead with rfl | hold
        · exact Nat.lt_irrefl _ hu
        · exact hlive hold
    · intro _ hpdead
      exact absurd (h.kept p hpdead) hplive
  | @back n m p hpc hdead hv hparent hp hflag hwhy =>
    obtain ⟨hpreached, hplive⟩ := h.here.parent (h.linked ht) hv hparent
    exact ⟨h.same, h.kept, h.sound, hpreached, fun _ => hplive, fun hfalse => by cases hfalse⟩
  | resume hpc =>
    have hlive : ¬ s.tree.Dead s.tree_node := h.live (by rw [hpc]; exact fun hfalse => by cases hfalse)
    exact ⟨h.same, h.kept, h.sound, h.here, fun _ => hlive, fun hfalse => by cases hfalse⟩
  | stay hpc => exact h

theorem start (hroot : ¬ t.Dead ROOT) : Explores t (Selecting.start t) where
  same := MctsTree.SameBy.modify_counter _ _ _ fun _ => rfl
  kept := fun v hv => (MctsTree.dead_modify_counter t ROOT _ (fun _ => rfl) v).mpr hv
  sound := fun v hv => .dead ((MctsTree.dead_modify_counter t ROOT _ (fun _ => rfl) v).mp hv)
  here := .root
  live := fun _ hdead => hroot ((MctsTree.dead_modify_counter t ROOT _ (fun _ => rfl) ROOT).mp hdead)
  chosen := fun hfalse => by cases hfalse

theorem steps (ht : Linked t) (hroot : ¬ t.Dead ROOT) (hprune : ignore = false ∨ Prunable t)
    (hsteps : SelectSteps ignore (Selecting.start t) s) : Explores t s := by
  induction hsteps with
  | refl => exact start hroot
  | tail _ hstep ih => exact ih.step ht hprune hstep

end Explores

/-- `v` is there and marked as fully explored. -/
def MctsTree.Flagged (t : MctsTree) (v : NodeId) : Prop := t.nodes[v]?.any (fun n => n.data.fully_explored) = true

namespace MctsTree.Flagged

variable {t : MctsTree} {v u : NodeId}

/-- A flag that is set after an assignment was set before, if the assignment sets none. -/
theorem of_modify {f : TreeNodeData → TreeNodeData} (h : (t.modify u f).Flagged v)
    (hf : ∀ d, (f d).fully_explored = true → d.fully_explored = true) : t.Flagged v := by
  rw [Flagged, getElem?_modify] at h
  rw [Flagged]
  cases hv : t.nodes[v]? with
  | none =>
    rw [hv] at h
    cases h
  | some n =>
    rw [hv, Option.map_some, Option.any_some] at h
    rw [Option.any_some]
    split at h
    · exact hf n.data h
    · exact h

theorem of_add {d : TreeNodeData} (h : (t.add u d).Flagged v) (hd : d.fully_explored = false) : t.Flagged v := by
  rw [Flagged] at h ⊢
  cases hv : (t.add u d).nodes[v]? with
  | none =>
    rw [hv] at h
    cases h
  | some n =>
    rw [hv, Option.any_some] at h
    rcases getElem?_of_add hv with ⟨rfl, rfl⟩ | ⟨m, hm, _, hdata, _⟩
    · rw [hd] at h
      cases h
    · rw [hm, Option.any_some, ← hdata]
      exact h

theorem of_dye {path : List UInt32} (h : (t.dye u path).Flagged v) : t.Flagged v := by
  rw [MctsTree.dye] at h
  exact of_add (of_modify h fun _ hflag => hflag) rfl

theorem of_append {code : UInt32} {white : Bool} {path : List UInt32} (h : (t.append u code white path).Flagged v) :
    t.Flagged v := by
  cases white with
  | false => exact of_add h rfl
  | true => exact of_add (of_dye h) rfl

theorem of_seed {q : queue_entry} {region_index : Nat} (h : (t.seed u q region_index).Flagged v) : t.Flagged v := by
  rw [MctsTree.seed] at h
  split at h
  · exact of_modify h fun _ hflag => hflag
  · exact h

theorem of_unmark {path_index len_codes : Nat} (h : (t.unmark u path_index len_codes).Flagged v) : t.Flagged v := by
  rw [MctsTree.unmark] at h
  split at h
  · exact of_modify h fun _ hflag => absurd hflag Bool.false_ne_true
  · exact h

theorem of_dye_and_seed {q : queue_entry} {response_codes : List UInt32} {path_index : Nat} {regions : RegionMatch}
    (h : (t.dye_and_seed u q response_codes path_index regions).Flagged v) : t.Flagged v := by
  rw [MctsTree.dye_and_seed] at h
  split at h
  · rw [MctsTree.seed_matched] at h
    have hflip : (t.flip u response_codes path_index).Flagged v := by
      split at h
      · exact of_seed h
      · exact h
    rw [MctsTree.flip] at hflip
    split at hflip
    · exact of_dye hflip
    · exact hflip
  · exact h

/-- The second round sets no flag. -/
theorem of_visit_all {q : queue_entry} {response_codes : List UInt32} {path_index : Nat} {codes : List UInt32} {s : Walk}
    (h : (visit_all q response_codes path_index codes s).tree.Flagged v) : s.tree.Flagged v := by
  induction codes generalizing path_index s with
  | nil => exact h
  | cons code codes ih =>
    have hvisit := of_dye_and_seed (ih h)
    split at hvisit
    · exact of_unmark (of_append hvisit)
    · exact of_unmark hvisit

theorem of_discover {is_new : Bool} {fuel : Nat} {w : Option NodeId} (h : (t.discover is_new fuel w).Flagged v) :
    t.Flagged v := by
  induction fuel generalizing t w with
  | zero => cases w <;> exact h
  | succ fuel ih =>
    cases w with
    | none => exact h
    | some w =>
      rw [MctsTree.discover] at h
      exact of_modify (ih h) fun _ hflag => hflag

/-- `Expansion` marks no node but the last one it visits. -/
theorem of_expand {q : queue_entry} {response_codes : List UInt32}
    (hv : v ≠ (t.walk q response_codes).tree_node) (h : (t.expand q response_codes).1.Flagged v) : t.Flagged v := by
  have hmarked := of_discover h
  rw [Flagged, getElem?_modify_ne _ (Ne.symm hv)] at hmarked
  exact of_seed (of_visit_all hmarked)

end MctsTree.Flagged

/-- Only the root has no parent, and it is White, so selection never marks it. -/
theorem SelectStep.root_unflagged {ignore : Bool} {s s' : Selecting} (h : Linked s.tree)
    (hroot : ¬ s.tree.Flagged ROOT) (hstep : SelectStep ignore s s') : ¬ s'.tree.Flagged ROOT := by
  cases hstep with
  | down => exact fun hflag => hroot (MctsTree.Flagged.of_modify hflag fun _ hd => hd)
  | @mark n m p hpc hdead hv hparent hp hwhy =>
    intro hflag
    by_cases hpr : p = ROOT
    · subst hpr
      obtain ⟨r, hr, _, hwhite⟩ := h.root
      rw [hp] at hr
      cases hr
      rcases hwhy with hset | ⟨hblack, _⟩
      · exact hroot (by rw [MctsTree.Flagged, hp, Option.any_some, hset])
      · rw [hwhite] at hblack
        cases hblack
    · rw [MctsTree.Flagged, MctsTree.getElem?_modify_ne _ hpr] at hflag
      exact hroot hflag
  | _ => exact hroot

theorem SelectSteps.root_unflagged {ignore : Bool} {s s' : Selecting} (hsteps : SelectSteps ignore s s')
    (h : Linked s.tree) (hroot : ¬ s.tree.Flagged ROOT) : ¬ s'.tree.Flagged ROOT := by
  induction hsteps with
  | refl => exact hroot
  | tail hbefore hstep ih =>
    exact hstep.root_unflagged (h.of_links (SelectSteps.same hbefore).links) ih

/-- The root is never marked. -/
theorem Run.root_unflagged {Ok : MctsTree → queue_entry → List UInt32 → Prop} {calls : List Call} {t : MctsTree}
    (hrun : Run Ok calls t) : ¬ t.Flagged ROOT := by
  induction hrun with
  | init h =>
    rw [Initialisation_eq] at h
    rw [returns_pure h]
    exact fun hflag => by cases hflag
  | expansion run ok h ih =>
    obtain ⟨hregions, hlen, heq⟩ := run.linked.returns_expansion h
    cases heq
    exact fun hflag => ih (MctsTree.Flagged.of_expand ((run.linked.walk_ready hregions _).2 hlen).symm hflag)
  | selection run h _ ih =>
    obtain ⟨ignore, log, final, hselect⟩ := h
    have hsteps := select_tree_node_steps run.linked hselect
    exact hsteps.root_unflagged (run.linked.of_links (MctsTree.SameBy.modify_counter _ _ _ fun _ => rfl).links)
      fun hflag => ih (MctsTree.Flagged.of_modify hflag fun _ hd => hd)
  | propagation run _ h ih =>
    rw [Propagation, set_tree_node_data] at h
    obtain ⟨_, _, h⟩ := returns_bind h
    rw [returns_pure h]
    exact fun hflag => ih (MctsTree.Flagged.of_modify hflag fun _ hd => hd)

/-- The root is live in every tree of a run: it is White, so a mark is all that could make it
dead. -/
theorem Run.root_live {Ok : MctsTree → queue_entry → List UInt32 → Prop} {calls : List Call} {t : MctsTree}
    (hrun : Run Ok calls t) : ¬ t.Dead ROOT := by
  obtain ⟨r, hr, _, hwhite⟩ := hrun.linked.root
  have hflag := hrun.root_unflagged
  rw [MctsTree.Flagged, hr, Option.any_some] at hflag
  rw [MctsTree.dead_iff hr, GNode.dead, hwhite]
  simpa using hflag

end aflnet.mcts
