import AflnetLegion.Mcts.BlackChain
import AflnetLegion.Mcts.Counters
import AflnetLegion.Mcts.Steering

open Checked

namespace aflnet.mcts

/-- The `selected` field of a node. -/
def MctsTree.selected (t : MctsTree) (v : NodeId) : UInt32 := (t.nodes[v]?.map fun n => n.data.selected).getD 0

/-- The sum of the counters of some nodes, which wraps as the counters do, so that the balance
holds for any number of selections. -/
def MctsTree.selected_sum (t : MctsTree) : List NodeId → UInt32
  | [] => 0
  | c :: children => t.selected c + t.selected_sum children

/-- The links of a node and how often it was selected. -/
def GNode.tally (n : GNode) : Links × UInt32 := (n.links, n.data.selected)

namespace MctsTree

variable {t t' : MctsTree} {v : NodeId} {n : GNode} {children added : List NodeId}

theorem selected_eq (hv : t.nodes[v]? = some n) : t.selected v = n.data.selected := by
  rw [selected, hv, Option.map_some, Option.getD_some]

theorem selected_sum_congr (h : ∀ c ∈ children, t'.selected c = t.selected c) :
    t'.selected_sum children = t.selected_sum children := by
  induction children with
  | nil => rfl
  | cons c children ih =>
    rw [selected_sum, selected_sum, h c (List.mem_cons_self ..), ih fun d hd => h d (List.mem_cons_of_mem _ hd)]

theorem selected_sum_append (t : MctsTree) (children added : List NodeId) :
    t.selected_sum (children ++ added) = t.selected_sum children + t.selected_sum added := by
  induction children with
  | nil => rw [List.nil_append, selected_sum, UInt32.zero_add]
  | cons c children ih => rw [List.cons_append, selected_sum, selected_sum, ih, UInt32.add_assoc]

theorem selected_sum_eq_zero (h : ∀ c ∈ children, t.selected c = 0) : t.selected_sum children = 0 := by
  induction children with
  | nil => rfl
  | cons c children ih =>
    rw [selected_sum, h c (List.mem_cons_self ..), ih fun d hd => h d (List.mem_cons_of_mem _ hd), UInt32.zero_add]

theorem selected_count_ne {c : NodeId} (hne : c ≠ v) : (t.count c).selected v = t.selected v := by
  rw [selected, count, getElem?_modify_ne t hne, selected]

theorem selected_count_self {c : NodeId} (hc : t.nodes[c]? = some n) : (t.count c).selected c = t.selected c + 1 := by
  have hcounted : (t.count c).nodes[c]? = some _ := getElem?_modify_self hc _
  rw [selected_eq hcounted, selected_eq hc]

/-- A selection of a child counts once. -/
theorem selected_sum_count {c : NodeId} (hc : t.nodes[c]? = some n) (hnodup : children.Nodup) :
    (t.count c).selected_sum children = t.selected_sum children + if c ∈ children then 1 else 0 := by
  induction children with
  | nil => rfl
  | cons d children ih =>
    obtain ⟨hd, hrest⟩ := List.nodup_cons.mp hnodup
    rw [selected_sum, selected_sum]
    by_cases hcd : c = d
    · subst hcd
      have hsame : (t.count c).selected_sum children = t.selected_sum children := by
        rw [ih hrest, if_neg hd, UInt32.add_zero]
      rw [hsame, selected_count_self hc, if_pos (List.mem_cons_self ..), UInt32.add_assoc, UInt32.add_assoc,
        UInt32.add_comm 1]
    · have hiff : c ∈ d :: children ↔ c ∈ children :=
        List.mem_cons.trans ⟨fun hor => hor.resolve_left hcd, Or.inr⟩
      rw [ih hrest, selected_count_ne hcd, UInt32.add_assoc]
      simp only [hiff]

/-- Every response node was selected as often as its children together. -/
def Balanced (t : MctsTree) : Prop :=
  ∀ (v : NodeId) (n : GNode), t.nodes[v]? = some n → n.data.colour ≠ .Golden → n.data.selected = t.selected_sum n.children

/-- Every response node but `v` was selected as often as its children together, and `v` once
more: it has been counted, and its child has not yet. -/
def AheadAt (t : MctsTree) (v : NodeId) : Prop :=
  ∀ (u : NodeId) (n : GNode), t.nodes[u]? = some n → n.data.colour ≠ .Golden →
    n.data.selected = t.selected_sum n.children + if u = v then 1 else 0

/-- A surplus at a SimNode is none, since SimNodes are not what the balance is about. -/
theorem AheadAt.balanced (h : t.AheadAt v) (hgolden : t.colour? v = some .Golden) : t.Balanced := by
  intro u n hu hresponse
  have hne : u ≠ v := by
    rintro rfl
    rw [colour?_eq hu] at hgolden
    exact hresponse (Option.some.inj hgolden)
  rw [h u n hu hresponse, if_neg hne, UInt32.add_zero]

end MctsTree

namespace Linked

variable {t : MctsTree} {v c : NodeId} {n : GNode}

/-- The node after a selection of `c`. -/
theorem selected_of_count (h : Linked t) {m : GNode} (hc : t.nodes[c]? = some m) {u : NodeId} {k' : GNode}
    (hu : (t.count c).nodes[u]? = some k') : ∃ k, t.nodes[u]? = some k ∧ k'.data.colour = k.data.colour ∧
      k'.data.selected = k.data.selected + (if u = c then 1 else 0) ∧
      (t.count c).selected_sum k'.children = t.selected_sum k.children + if c ∈ k.children then 1 else 0 := by
  obtain ⟨k, hk, _, hchildren, hdata⟩ := MctsTree.getElem?_of_modify hu
  refine ⟨k, hk, ?_, ?_, by rw [hchildren, MctsTree.selected_sum_count hc (h.nodup hk)]⟩
  · rw [hdata]
    split <;> rfl
  · rw [hdata]
    by_cases hcu : c = u
    · rw [if_pos hcu, if_pos hcu.symm]
    · rw [if_neg hcu, if_neg (Ne.symm hcu), UInt32.add_zero]

/-- When selection enters the tree, only the root has been counted. -/
theorem ahead_at_root (h : Linked t) (hbalanced : t.Balanced) : (t.count ROOT).AheadAt ROOT := by
  obtain ⟨r, hr, hnone, _⟩ := h.root
  intro u k' hu hresponse
  obtain ⟨k, hk, hcolour, hselected, hsum⟩ := h.selected_of_count hr hu
  have hnot : ROOT ∉ k.children := by
    intro hmem
    obtain ⟨m, hm, hparent⟩ := h.child hk hmem
    exact h.ne_root_of_parent hm hparent rfl
  rw [hselected, hsum, if_neg hnot, UInt32.add_zero, hbalanced u k hk (by rw [← hcolour]; exact hresponse)]

/-- One step down moves the surplus to the child. -/
theorem ahead_at_child (h : Linked t) (hahead : t.AheadAt v) (hv : t.nodes[v]? = some n) (hc : c ∈ n.children) :
    (t.count c).AheadAt c := by
  obtain ⟨m, hm, hparent⟩ := h.child hv hc
  intro u k' hu hresponse
  obtain ⟨k, hk, hcolour, hselected, hsum⟩ := h.selected_of_count hm hu
  have hiff : c ∈ k.children ↔ u = v := by
    constructor
    · intro hmem
      obtain ⟨m', hm', hparent'⟩ := h.child hk hmem
      rw [hm] at hm'
      cases hm'
      rw [hparent] at hparent'
      exact (Option.some.inj hparent').symm
    · rintro rfl
      rw [hv] at hk
      cases hk
      exact hc
  rw [hselected, hsum, hahead u k hk (by rw [← hcolour]; exact hresponse)]
  simp only [hiff]

end Linked

/-- Below ROOT, through live nodes that are no SimNodes, every live Black node has a
live child. -/
def Unblocked (t : MctsTree) : Prop :=
  ∀ (v : NodeId) (n : GNode), Reached t v → ¬ t.Dead v → t.nodes[v]? = some n → n.data.colour = .Black →
    ∃ c ∈ n.children, ¬ t.Dead c

/-- Selection on `t` that has not backed up so far: the nodes from ROOT down to the
current one have been selected once more. -/
structure Straight (t : MctsTree) (s : Selecting) : Prop where
  same : MctsTree.SameBy GNode.skeleton t s.tree
  dead_iff : ∀ v, s.tree.Dead v ↔ t.Dead v
  here : Reached t s.tree_node
  live : ¬ t.Dead s.tree_node
  ahead : s.tree.AheadAt s.tree_node
  arrived : s.pc = .done → s.tree.colour? s.tree_node = some .Golden

/-- Selection on `t` that goes back and forth forever between a live node that is not
Black and its children, which are all dead. -/
structure Trapped (t : MctsTree) (s : Selecting) (v : NodeId) (n : GNode) : Prop where
  same : MctsTree.SameBy GNode.skeleton t s.tree
  dead_iff : ∀ v, s.tree.Dead v ↔ t.Dead v
  node : t.nodes[v]? = some n
  response : n.data.colour ≠ .Golden
  not_black : n.data.colour ≠ .Black
  live : ¬ t.Dead v
  all_dead : ∀ c ∈ n.children, t.Dead c
  here : (s.pc = .descend ∨ s.pc = .resume) ∧ s.tree_node = v ∨ s.pc = .backtrack ∧ s.tree_node ∈ n.children

theorem Straight.start {t : MctsTree} (h : Linked t) (hroot : ¬ t.Dead ROOT) (hbalanced : t.Balanced) :
    Straight t (Selecting.start t) where
  same := MctsTree.SameBy.count t ROOT
  dead_iff := MctsTree.dead_count t ROOT
  here := .root
  live := hroot
  ahead := h.ahead_at_root hbalanced
  arrived := fun hfalse => by cases hfalse

/-- As long as selection does not choose a dead child it goes straight down. On an
unblocked tree a dead child traps it. -/
theorem Straight.step {t : MctsTree} {s s' : Selecting} {ignore : Bool} (h : Straight t s) (ht : Linked t)
    (hfree : Unblocked t) (hstep : SelectStep ignore s s') : Straight t s' ∨ ∃ v n, Trapped t s' v n := by
  have hs : Linked s.tree := ht.of_links h.same.links
  have hlive : ¬ s.tree.Dead s.tree_node := fun hdead => h.live ((h.dead_iff _).mp hdead)
  cases hstep with
  | arrive _ hv hgolden =>
    exact Or.inl ⟨h.same, h.dead_iff, h.here, h.live, h.ahead, fun _ => by rw [MctsTree.colour?_eq hv, hgolden]⟩
  | @down n c hpc hv hresponse hc hbest =>
    have hsame : MctsTree.SameBy GNode.skeleton t (s.tree.count c) := h.same.trans (MctsTree.SameBy.count s.tree c)
    have hdead : ∀ v, (s.tree.count c).Dead v ↔ t.Dead v := fun v =>
      (MctsTree.dead_count s.tree c v).trans (h.dead_iff v)
    obtain ⟨n₀, hn₀, hchildren, hcolour, _⟩ := h.same.symm.links.exists_links hv
    by_cases hcdead : t.Dead c
    · right
      have hall : ∀ d ∈ n₀.children, t.Dead d := by
        intro d hd
        rw [hchildren] at hd
        exact (h.dead_iff d).mp (hbest ((h.dead_iff c).mpr hcdead) d hd)
      refine ⟨s.tree_node, n₀, hsame, hdead, hn₀, by rw [hcolour]; exact hresponse, ?_, h.live, hall,
        Or.inr ⟨rfl, by rw [hchildren]; exact hc⟩⟩
      intro hblack
      obtain ⟨d, hd, hdlive⟩ := hfree s.tree_node n₀ h.here h.live hn₀ hblack
      exact hdlive (hall d hd)
    · left
      exact ⟨hsame, hdead, .child h.here h.live hn₀ (by rw [hcolour]; exact hresponse) (by rw [hchildren]; exact hc),
        hcdead, hs.ahead_at_child h.ahead hv hc, fun hfalse => by cases hfalse⟩
  | live => exact Or.inl ⟨h.same, h.dead_iff, h.here, h.live, h.ahead, fun hfalse => by cases hfalse⟩
  | mark _ hdead => exact absurd hdead hlive
  | back _ hdead => exact absurd hdead hlive
  | resume => exact Or.inl ⟨h.same, h.dead_iff, h.here, h.live, h.ahead, fun hfalse => by cases hfalse⟩
  | stay => exact Or.inl h

/-- A trapped selection stays trapped: what is chosen again is the same dead child. -/
theorem Trapped.step {t : MctsTree} {s s' : Selecting} {ignore : Bool} {v : NodeId} {n : GNode} (h : Trapped t s v n)
    (ht : Linked t) (hstep : SelectStep ignore s s') : Trapped t s' v n := by
  have hs : Linked s.tree := ht.of_links h.same.links
  obtain ⟨n', hv', hchildren, hcolour, _⟩ := h.same.links.exists_links h.node
  have hvlive : ¬ s.tree.Dead v := fun hdead => h.live ((h.dead_iff v).mp hdead)
  have hup : ∀ {m : GNode} {p : NodeId}, s.pc = .backtrack → s.tree.nodes[s.tree_node]? = some m → m.parent = some p →
      p = v := by
    intro m p hpc hm hparent
    rcases h.here with ⟨hother, _⟩ | ⟨_, hmem⟩
    · rw [hpc] at hother
      rcases hother with hother | hother <;> cases hother
    · obtain ⟨k, hk, hkparent⟩ := hs.child hv' (show s.tree_node ∈ n'.children by rw [hchildren]; exact hmem)
      rw [hm] at hk
      cases hk
      rw [hparent] at hkparent
      exact Option.some.inj hkparent
  have hdown : ∀ {pc : Pc}, s.pc = pc → pc ≠ .backtrack → s.tree_node = v := by
    rintro pc hpc hne
    rcases h.here with ⟨_, heq⟩ | ⟨hback, _⟩
    · exact heq
    · exact absurd (hpc.symm.trans hback) hne
  cases hstep with
  | @arrive m hpc hm hgolden =>
    rw [hdown hpc (fun hfalse => by cases hfalse), hv'] at hm
    cases hm
    exact absurd (hcolour.symm.trans hgolden) h.response
  | @down m c hpc hm _ hc _ =>
    rw [hdown hpc (fun hfalse => by cases hfalse), hv'] at hm
    cases hm
    exact ⟨h.same.trans (MctsTree.SameBy.count s.tree c), fun u => (MctsTree.dead_count s.tree c u).trans (h.dead_iff u),
      h.node, h.response, h.not_black, h.live, h.all_dead, Or.inr ⟨rfl, by rw [← hchildren]; exact hc⟩⟩
  | live hpc hlive =>
    rcases h.here with ⟨hother, _⟩ | ⟨_, hmem⟩
    · rw [hpc] at hother
      rcases hother with hother | hother <;> cases hother
    · exact absurd ((h.dead_iff _).mpr (h.all_dead _ hmem)) hlive
  | @mark _ m p hpc _ hm hparent hp hwhy =>
    obtain rfl := hup hpc hm hparent
    rw [hv'] at hp
    cases hp
    rcases hwhy with hflag | ⟨hblack, _⟩
    · rw [MctsTree.unflagged_of_live hv' hvlive] at hflag
      cases hflag
    · exact absurd (hcolour.symm.trans hblack) h.not_black
  | @back _ m p hpc _ hm hparent hp _ _ =>
    obtain rfl := hup hpc hm hparent
    exact ⟨h.same, h.dead_iff, h.node, h.response, h.not_black, h.live, h.all_dead, Or.inl ⟨Or.inr rfl, rfl⟩⟩
  | resume hpc =>
    exact ⟨h.same, h.dead_iff, h.node, h.response, h.not_black, h.live, h.all_dead,
      Or.inl ⟨Or.inl rfl, hdown hpc (fun hfalse => by cases hfalse)⟩⟩
  | stay => exact h

/-- A selection that completes on an unblocked tree has gone straight down. -/
theorem SelectSteps.straight {t : MctsTree} {s : Selecting} {ignore : Bool} (h : SelectSteps ignore (.start t) s)
    (ht : Linked t) (hroot : ¬ t.Dead ROOT) (hbalanced : t.Balanced) (hfree : Unblocked t) (hdone : s.pc = .done) :
    Straight t s := by
  have hcase : Straight t s ∨ ∃ v n, Trapped t s v n := by
    clear hdone
    induction h with
    | refl => exact Or.inl (.start ht hroot hbalanced)
    | tail _ hstep ih =>
      rcases ih with hstraight | ⟨v, n, htrapped⟩
      · exact hstraight.step ht hfree hstep
      · exact Or.inr ⟨v, n, htrapped.step ht hstep⟩
  rcases hcase with hstraight | ⟨v, n, htrapped⟩
  · exact hstraight
  · rcases htrapped.here with ⟨hpc, _⟩ | ⟨hpc, _⟩
    · rw [hdone] at hpc
      rcases hpc with hpc | hpc <;> cases hpc
    · rw [hdone] at hpc
      cases hpc

namespace MctsTree

variable {t t' : MctsTree}

theorem selected_of_tally (h : SameBy GNode.tally t t') (v : NodeId) : t'.selected v = t.selected v := by
  have hsame : SameBy (fun n : GNode => n.data.selected) t t' := h.map Prod.snd
  rw [selected, selected, hsame v]

/-- The balance depends on links, colours and counters only. -/
theorem Balanced.of_tally (h : t.Balanced) (hsame : SameBy GNode.tally t t') : t'.Balanced := by
  intro v n' hv hresponse
  obtain ⟨n, hn, htally⟩ := hsame.symm.exists_node hv
  have hlinks : n.links = n'.links := congrArg Prod.fst htally
  have hselected : n.data.selected = n'.data.selected := congrArg Prod.snd htally
  rw [← hselected, ← GNode.children_of_links hlinks, selected_sum_congr fun c _ => selected_of_tally hsame c]
  apply h v n hn
  rw [GNode.colour_of_links hlinks]
  exact hresponse

/-- New nodes, which were never selected, do not change the balance. -/
theorem Balanced.extends (h : t.Balanced) (ht : Linked t) (ht' : Linked t') (hext : t.Extends t') : t'.Balanced := by
  have hnew : ∀ c, t.nodes.length ≤ c → t'.selected c = 0 := by
    intro c hge
    cases hc : t'.nodes[c]? with
    | none => rw [selected, hc, Option.map_none, Option.getD_none]
    | some n' => rw [selected_eq hc, (hext.new hge hc).1]
  intro v n' hv hresponse
  by_cases hlt : v < t.nodes.length
  · obtain ⟨n, hn⟩ := getElem?_of_lt hlt
    obtain ⟨m, added, hm, hcounts, hchildren, hadded⟩ := hext.old hn
    rw [hv] at hm
    cases hm
    have hold : t'.selected_sum n.children = t.selected_sum n.children := by
      refine selected_sum_congr fun c hc => ?_
      obtain ⟨k, hk, _⟩ := ht.child hn hc
      obtain ⟨k', _, hk', hkcounts, _⟩ := hext.old hk
      rw [selected_eq hk', selected_eq hk, TreeNodeData.selected_of_counts hkcounts]
    rw [hchildren, selected_sum_append, selected_sum_eq_zero fun c hc => hnew c (hadded c hc), UInt32.add_zero, hold,
      TreeNodeData.selected_of_counts hcounts]
    exact h v n hn fun hgolden => hresponse ((TreeNodeData.golden_iff_of_counts hcounts).mpr hgolden)
  · have hge := Nat.not_lt.mp hlt
    rw [(hext.new hge hv).1, selected_sum_eq_zero]
    intro c hc
    exact hnew c (Nat.le_trans hge (Nat.le_of_lt (ht'.parent_lt_child hv hc)))

/-- What follows the second round marks a node and counts discoveries, but links and selections
stay. -/
theorem finish_tally {v : NodeId} (hv : v < t.nodes.length) (new_path : Bool) :
    SameBy GNode.tally t (t.finish v new_path) := by
  obtain ⟨n, hn⟩ := getElem?_of_lt hv
  rw [finish]
  exact (SameBy.modify hn rfl).trans (discover_keeps (fun _ _ => rfl) _ _ _ _)

/-- `Expansion` keeps the balance, whatever the response is: new nodes were not selected yet. -/
theorem Balanced.expand (h : t.Balanced) (ht : Linked t) {q : queue_entry} (hregions : 0 < q.region_count)
    (response_codes : List UInt32) : (t.expand q response_codes).1.Balanced := by
  have hready := (ht.walk_ready hregions response_codes).1
  exact (h.extends ht hready.linked (Extends.walk t q response_codes)).of_tally (finish_tally hready.present _)

end MctsTree

theorem balanced_initial : MctsTree.initial.Balanced := by
  intro v n hv _
  match v with
  | 0 =>
    cases hv
    rfl
  | 1 =>
    cases hv
    rfl
  | v + 2 => cases hv

/-- Runs in which every completed selection started from a tree that satisfies `Fine`.
Selections that do not complete may start from any tree, as the next step follows a completed
one. -/
inductive SelectiveRun (Ok : MctsTree → queue_entry → List UInt32 → Prop) (Fine : MctsTree → Prop) :
    List Call → MctsTree → Prop where
  | init {t : MctsTree} (h : Returns Initialisation t) : SelectiveRun Ok Fine [] t
  | expansion {calls : List Call} {t t' : MctsTree} {q : queue_entry} {response_codes : List UInt32} {v : NodeId}
      {new_path : Bool} (run : SelectiveRun Ok Fine calls t) (ok : Ok t q response_codes)
      (h : Returns (Expansion t ROOT q response_codes) (t', v, new_path)) :
      SelectiveRun Ok Fine (calls ++ [⟨q, response_codes, new_path⟩]) t'
  | selection {calls : List Call} {t : MctsTree} {oracles : Nat → Oracle} {fuel : Nat} {s : Selecting}
      (run : SelectiveRun Ok Fine calls t) (fine : Fine t) (h : Returns (select_tree_node oracles fuel t ROOT) s)
      (hdone : s.pc = .done) : SelectiveRun Ok Fine calls s.tree
  | propagation {calls : List Call} {t t' : MctsTree} {v : NodeId} {seed_selected : Option Nat} {is_new : Bool}
      (run : SelectiveRun Ok Fine calls t) (hgolden : t.colour? v = some .Golden)
      (h : Returns (Propagation t v seed_selected is_new) t') : SelectiveRun Ok Fine calls t'

variable {Ok : MctsTree → queue_entry → List UInt32 → Prop} {Fine : MctsTree → Prop} {calls : List Call} {t : MctsTree}

/-- Such a run is a run, so everything known about runs holds of it. -/
theorem SelectiveRun.run (hrun : SelectiveRun Ok Fine calls t) : Run Ok calls t := by
  induction hrun with
  | init h => exact .init h
  | expansion _ ok h ih => exact .expansion ih ok h
  | selection _ _ h hdone ih => exact .selection ih h hdone
  | propagation _ hgolden h ih => exact .propagation ih hgolden h

/-- If no selection of a run starts from a tree in which a live Black node that it can
get to has dead children only, then after the run every node but a SimNode was selected
as often as its children together. -/
theorem SelectiveRun.selected_counts_balance (hrun : SelectiveRun Ok Unblocked calls t) :
    ∀ (v : NodeId) (n : GNode), t.nodes[v]? = some n → n.data.colour ≠ .Golden →
      n.data.selected = t.selected_sum n.children := by
  change t.Balanced
  induction hrun with
  | init h =>
    rw [Initialisation_eq] at h
    rw [returns_pure h]
    exact balanced_initial
  | expansion run _ h ih =>
    obtain ⟨hregions, _, heq⟩ := run.run.linked.returns_expansion h
    cases heq
    exact ih.expand run.run.linked hregions _
  | @selection calls t oracles fuel s run hfree h hdone ih =>
    obtain ⟨ignore, log, final, hselect⟩ := h
    have hstraight := (select_tree_node_steps run.run.linked hselect).straight run.run.linked run.run.root_live ih
      hfree hdone
    exact hstraight.ahead.balanced (hstraight.arrived hdone)
  | propagation _ _ h ih => exact ih.of_tally (returns_set_tree_node_data (fun _ => rfl) h)

/-- A selection that goes down to the SimNode of the only leaf. -/
theorem balance_after_one_selection : ∃ s, Returns (select_tree_node (fun _ => .preferring 2) 5
    (MctsTree.initial.expand single_entry [0, 5]).1 ROOT) s ∧ s.tree.selected ROOT = s.tree.selected_sum [1, 2] := by
  have hexpansion := linked_initial.expansion_returns (q := single_entry) (by decide)
    (show 2 ≤ ([0, 5] : List UInt32).length by decide)
  have hrun := (SelectiveRun.init ⟨true, [], [], rfl⟩ : SelectiveRun (fun _ _ _ => True) Unblocked [] .initial).expansion
    trivial hexpansion
  have hfree : Unblocked (MctsTree.initial.expand single_entry [0, 5]).1 := by
    intro v n _ _ hv hblack
    match v with
    | 0 => cases hv; cases hblack
    | 1 => cases hv; cases hblack
    | 2 => cases hv; cases hblack
    | 3 => cases hv; cases hblack
    | v + 4 => cases hv
  have hselect : Returns (select_tree_node (fun _ => .preferring 2) 5
    (MctsTree.initial.expand single_entry [0, 5]).1 ROOT) _ := ⟨false, [], [], rfl⟩
  exact ⟨_, hselect, SelectiveRun.selected_counts_balance (hrun.selection hfree hselect rfl) ROOT _ rfl (by decide)⟩

/-- A selection that backs out of a Black node whose only child is exhausted. The node
was selected once and so was ROOT, which has then chosen another child as well. -/
theorem surplus_below_root : ∃ calls t, Run WellAnnotated calls t ∧
    ∃ s, Returns (select_tree_node (fun _ => .preferring 2) 11 t ROOT) s ∧ s.pc = .done ∧
      s.tree.nodes[ROOT]?.map GNode.children = some [1, 2] ∧ s.tree.selected ROOT = 1 ∧
      s.tree.selected_sum [1, 2] = 2 := by
  have hfirst : WellAnnotated .initial (burst_entry 2) [0, 1, 2] := ⟨⟨by decide, rfl, by decide⟩, by decide, rfl⟩
  have hrun := Run.initial.expand hfirst (by decide) (by decide)
  exact ⟨_, _, hrun, _, ⟨false, [], [], rfl⟩, rfl, rfl, rfl, rfl⟩

end aflnet.mcts
