import AflnetLegion.Lib.Potential
import AflnetLegion.Mcts.Alias
import AflnetLegion.Mcts.Colour
import AflnetLegion.Mcts.Steering
import AflnetLegion.Mcts.Track

open Checked

namespace aflnet.mcts

/-- Trees on which selection always gets to a seed. Every live node it can reach has
to have a White node or a live SimNode to offer, if it is White; a Black one needs
a single child, or no live child that is exhausted and at least one live child. -/
def Selectable (t : MctsTree) : Prop :=
  ∀ (v : NodeId) (n : GNode), Reached t v → ¬ t.Dead v → t.nodes[v]? = some n →
    (n.data.colour = .White → ∃ c ∈ n.children, ¬ Exhausted t c) ∧
    (n.data.colour = .Black → (∃ c, n.children = [c]) ∨
      ((∃ c ∈ n.children, ¬ t.Dead c) ∧ ∀ c ∈ n.children, ¬ t.Dead c → ¬ Exhausted t c))

/-- A selectable tree is one on which marking hides nothing. -/
theorem Selectable.prunable {t : MctsTree} (h : Selectable t) : Prunable t := by
  intro v x d first rest n hreached hlive hv hblack hchildren hx hxlive hexhausted _ hd hdlive
  rcases (h v n hreached hlive hv).2 hblack with ⟨c, hc⟩ | ⟨_, hnone⟩
  · rw [hc] at hx hd
    rw [List.mem_singleton.mp hx, List.mem_singleton.mp hd]
  · exact absurd hexhausted (hnone x hx hxlive)

namespace Explores

variable {t : MctsTree} {s s' : Selecting}

/-- Selection keeps the shape of the tree, since it changes counters and flags only. -/
theorem shape (h : Explores t s) (ht : Shape t) : Shape s.tree := ht.of_label h.same.label

/-- A node selection can reach offers it a child, and a live one if it is White. -/
theorem offers (h : Explores t s) (ht : Shape t) (hselectable : Selectable t) {n : GNode}
    (hlive : ¬ s.tree.Dead s.tree_node) (hv : s.tree.nodes[s.tree_node]? = some n) (hresponse : n.data.colour ≠ .Golden) :
    n.children ≠ [] ∧ (n.data.colour = .White ∧ (∃ c ∈ n.children, ¬ s.tree.Dead c) ∨ n.data.colour = .Black) := by
  obtain ⟨n₀, hn₀, hchildren, hcolour, _⟩ := h.same.symm.links.exists_links hv
  obtain ⟨hwhite, hblack⟩ := hselectable s.tree_node n₀ (h.reached ht.toLinked h.here)
    (fun hdead => hlive (h.kept _ hdead)) hn₀
  rw [hchildren, hcolour] at hwhite hblack
  rcases (h.shape ht).colours hv with hcase | hcase | hcase
  · obtain ⟨c, hc, hfree⟩ := hwhite hcase
    exact ⟨List.ne_nil_of_mem hc, Or.inl ⟨hcase, c, hc, fun hdead => hfree (h.sound c hdead)⟩⟩
  · exact absurd hcase hresponse
  · refine ⟨?_, Or.inr hcase⟩
    rcases hblack hcase with ⟨c, hc⟩ | ⟨⟨c, hc, _⟩, _⟩
    · rw [hc]
      exact List.cons_ne_nil _ _
    · exact List.ne_nil_of_mem hc

/-- Selection comes back to a Black node only from its single child. -/
theorem only_child (h : Explores t s) (ht : Shape t) (hselectable : Selectable t) {n m : GNode} {p : NodeId}
    (hpc : s.pc = .backtrack) (hdead : s.tree.Dead s.tree_node) (hv : s.tree.nodes[s.tree_node]? = some n)
    (hparent : n.parent = some p) (hp : s.tree.nodes[p]? = some m) (hblack : m.data.colour = .Black) :
    m.children = [s.tree_node] ∧ n.data.colour ≠ .Golden := by
  have hshape := h.shape ht
  have hmem := hshape.toLinked.mem_children_of_parent hv hparent hp
  obtain ⟨hpreached, hplive⟩ := h.here.parent hshape.toLinked hv hparent
  obtain ⟨m₀, hm₀, hchildren, hcolour, _⟩ := h.same.symm.links.exists_links hp
  have hcases := (hselectable p m₀ (h.reached ht.toLinked hpreached) (fun hx => hplive (h.kept p hx)) hm₀).2
    (hcolour.trans hblack)
  rw [hchildren] at hcases
  constructor
  · rcases hcases with ⟨c, hc⟩ | ⟨⟨c, hc, hclive⟩, hnone⟩
    · rw [hc] at hmem ⊢
      rw [List.mem_singleton.mp hmem]
    · by_cases hold : t.Dead s.tree_node
      · exact absurd (h.sound c (h.chosen hpc hold p m hp hmem c hc)) (hnone c hc hclive)
      · exact absurd (h.sound _ hdead) (hnone _ hmem hold)
  · intro hgolden
    have hwhite := hshape.golden_parent_white hp hmem (by rw [MctsTree.colour?_eq hv, hgolden])
    rw [hblack] at hwhite
    cases hwhite

theorem root_not_dead (h : Explores t s) (ht : Linked t) (hroot : ¬ t.Dead ROOT) : ¬ s.tree.Dead ROOT := by
  intro hdead
  obtain ⟨r, hr, _, hwhite⟩ := ht.root
  cases h.sound ROOT hdead with
  | dead hold => exact hroot hold
  | black hv hblack =>
    rw [hr] at hv
    cases hv
    rw [hwhite] at hblack
    cases hblack

/-- No assertion fails in a step, and no access is invalid. -/
theorem step_is_safe (h : Explores t s) (ht : Shape t) (hroot : ¬ t.Dead ROOT) (hselectable : Selectable t) (o : Oracle) :
    Holds (fun _ => False) (select_step o s) fun _ => True := by
  have hlinked := (h.shape ht).toLinked
  obtain ⟨n, hv⟩ := h.here.present hlinked
  rw [select_step]
  cases hpc : s.pc with
  | descend =>
    dsimp only
    rw [get_tree_node_data_eq hv, pure_bind]
    split
    · exact Holds.pure trivial
    · rename_i hresponse
      have hlive : ¬ s.tree.Dead s.tree_node := h.live (by rw [hpc]; exact fun hfalse => by cases hfalse)
      obtain ⟨hne, hcase⟩ := h.offers ht hselectable hlive hv hresponse
      obtain ⟨c, hc, hbest, hdead⟩ := hlinked.best_child_eq hv hne o
      rw [hlinked.select_descend_eq hv hc hbest]
      refine Holds.bind (Holds.soft_assert (Or.inl ?_)) fun _ _ => Holds.pure trivial
      rcases hcase with ⟨_, d, hd, hdlive⟩ | hblack
      · exact Or.inl fun hcdead => hdlive (hdead hcdead d hd)
      · exact Or.inr hblack
  | backtrack =>
    dsimp only
    rw [tree_node_score_eq hv, pure_bind]
    split
    · rename_i hbot
      have hdead : s.tree.Dead s.tree_node :=
        (MctsTree.dead_iff hv).mpr ((n.score_eq_bot_iff o s.tree_node).mp hbot)
      have hne : s.tree_node ≠ ROOT := fun heq => h.root_not_dead ht.toLinked hroot (heq ▸ hdead)
      obtain ⟨p, m, hparent, _, hp, _⟩ := hlinked.parent hv hne
      have hinner : G_NODE_IS_ROOT n = false := by rw [G_NODE_IS_ROOT, hparent]; rfl
      rw [select_backtrack, deref_eq hv, pure_bind, hparent]
      refine Holds.bind (Holds.soft_assert (Or.inl hinner)) fun _ _ => ?_
      dsimp only
      have hflag := MctsTree.unflagged_of_live hp (h.here.parent hlinked hv hparent).2
      by_cases hblack : m.data.colour = .Black
      · obtain ⟨hchildren, hresponse⟩ := h.only_child ht hselectable hpc hdead hv hparent hp hblack
        rw [Linked.is_fully_explored_chain hp hflag hblack hchildren hv hresponse, pure_bind,
          if_pos (decide_eq_true hbot), set_tree_node_data_eq hp, pure_bind]
        exact Holds.pure trivial
      · rw [Linked.is_fully_explored_not_black hp hflag hblack, pure_bind]
        exact Holds.pure trivial
    · exact Holds.pure trivial
  | resume =>
    dsimp only
    have hlive : ¬ s.tree.Dead s.tree_node := h.live (by rw [hpc]; exact fun hfalse => by cases hfalse)
    rw [tree_node_score_eq hv, pure_bind]
    refine Holds.bind (Holds.soft_assert (Or.inl ?_)) fun _ _ => Holds.pure trivial
    rw [bot_lt_iff_ne_bot, Ne, GNode.score_eq_bot_iff]
    exact fun hdead => hlive ((MctsTree.dead_iff hv).mpr hdead)
  | done => exact Holds.pure trivial

end Explores

namespace Selecting

/-- How many nodes have not been marked. -/
def unmarked (s : Selecting) : Nat := s.tree.nodes.countP fun n => !n.data.fully_explored

/-- Whether the current node is below a Black node. -/
def below_black (s : Selecting) : Bool :=
  s.tree.nodes[s.tree_node]?.any fun n => n.parent.any fun p => s.tree.colour? p = some .Black

/-- Selection is about to mark the Black parent of a dead node. -/
def Marking (s : Selecting) : Prop := s.pc = .backtrack ∧ s.tree.Dead s.tree_node ∧ s.below_black = true

instance (s : Selecting) : Decidable s.Marking := inferInstanceAs (Decidable (_ ∧ _))

/-- The first digit of the potential: the nodes that are still to be marked, where a mark that
is about to be set counts as set. -/
def level (s : Selecting) : Nat := if s.Marking then s.unmarked - 1 else s.unmarked

/-- The second digit: how far the current node is from the youngest one. -/
def height (s : Selecting) : Nat := 3 * (s.tree.nodes.length - s.tree_node)

/-- While the level stays the same selection moves to younger nodes. On the way back it takes
more steps for one level, which are counted by where the program is. -/
def offset (s : Selecting) : Nat :=
  match s.pc with
  | .done => 0
  | .descend => s.height
  | .resume => s.height + 1
  | .backtrack =>
    if s.Marking then 3 * s.tree.nodes.length + 4
    else if s.tree.Dead s.tree_node then 3 * s.tree.nodes.length + 3
    else s.height + 2

/-- A bound on the number of steps that are left. -/
def potential (s : Selecting) : Nat := s.level * (3 * s.tree.nodes.length + 5) + s.offset

/-- The second digit is bounded, so that one less of the first digit is worth more. -/
theorem offset_lt (s : Selecting) : s.offset < 3 * s.tree.nodes.length + 5 := by
  have hheight : s.height ≤ 3 * s.tree.nodes.length := Nat.mul_le_mul_left 3 (Nat.sub_le _ _)
  unfold offset
  split
  · omega
  · omega
  · omega
  · split
    · omega
    · split <;> omega

/-- A step makes the potential smaller if it takes one off the first digit, or something off the
second one while the first one stays. -/
theorem potential_lt {s s' : Selecting} (hlength : s'.tree.nodes.length = s.tree.nodes.length)
    (h : s'.level < s.level ∨ (s'.level = s.level ∧ s'.offset < s.offset)) : s'.potential < s.potential := by
  have hbase := s'.offset_lt
  rw [hlength] at hbase
  rw [potential, potential, hlength]
  exact Potential.lex_lt h hbase

theorem level_eq {s : Selecting} (h : ¬ s.Marking) : s.level = s.unmarked := if_neg h

/-- Whether the node is below a Black one can be read from its parent. -/
theorem below_black_eq {s : Selecting} {n m : GNode} {p : NodeId} (hv : s.tree.nodes[s.tree_node]? = some n)
    (hparent : n.parent = some p) (hp : s.tree.nodes[p]? = some m) :
    s.below_black = decide (m.data.colour = .Black) := by
  rw [below_black, hv, Option.any_some, hparent, Option.any_some, MctsTree.colour?_eq hp]
  simp

/-- A live Black node is one of the unmarked ones. -/
theorem unmarked_pos {s : Selecting} {p : NodeId} {m : GNode} (hp : s.tree.nodes[p]? = some m)
    (hlive : ¬ s.tree.Dead p) : 0 < s.unmarked := by
  refine List.countP_pos_iff.mpr ⟨m, List.mem_of_getElem? hp, ?_⟩
  rw [MctsTree.unflagged_of_live hp hlive]
  rfl

theorem unmarked_modify_counter (pc pc' : Pc) (v u c : NodeId) (t : MctsTree) (f : TreeNodeData → TreeNodeData)
    (hf : ∀ d, (f d).fully_explored = d.fully_explored) :
    unmarked { pc := pc', tree_node := u, tree := t.modify c f } = unmarked { pc, tree_node := v, tree := t } :=
  Potential.countP_modify_of_same (fun n => by rw [hf]) _ _

/-- The two digits in the states that are not about to mark a node. -/
theorem digits_of_not_marking {s : Selecting} (h : ¬ s.Marking) :
    s.level = s.unmarked ∧ (s.pc = .descend → s.offset = s.height) ∧ (s.pc = .resume → s.offset = s.height + 1) ∧
      (s.pc = .backtrack → s.tree.Dead s.tree_node → s.offset = 3 * s.tree.nodes.length + 3) ∧
      (s.pc = .backtrack → ¬ s.tree.Dead s.tree_node → s.offset = s.height + 2) := by
  refine ⟨if_neg h, ?_, ?_, ?_, ?_⟩
  · intro hpc
    rw [offset, hpc]
  · intro hpc
    rw [offset, hpc]
  · intro hpc hdead
    rw [offset, hpc]
    exact (if_neg h).trans (if_pos hdead)
  · intro hpc hlive
    rw [offset, hpc]
    exact (if_neg h).trans (if_neg hlive)

theorem digits_of_marking {s : Selecting} (h : s.Marking) :
    s.level = s.unmarked - 1 ∧ s.offset = 3 * s.tree.nodes.length + 4 := by
  refine ⟨if_pos h, ?_⟩
  rw [offset, h.1]
  exact if_pos h

theorem not_marking {s : Selecting} (h : s.pc ≠ .backtrack) : ¬ s.Marking := fun hmarking => h hmarking.1

/-- The current node is one of the tree, so something of the height is left. -/
theorem height_pos {s : Selecting} {n : GNode} (hv : s.tree.nodes[s.tree_node]? = some n) : 0 < s.height := by
  have hlt := MctsTree.lt_of_getElem? hv
  exact Nat.mul_pos (by decide) (Nat.sub_pos_of_lt hlt)

/-- A younger node is at least three below. -/
theorem height_lt {s : Selecting} {c : NodeId} {n : GNode} (hv : s.tree.nodes[s.tree_node]? = some n)
    (hlt : s.tree_node < c) : 3 * (s.tree.nodes.length - c) + 3 ≤ s.height := by
  have hbound := MctsTree.lt_of_getElem? hv
  have hless : s.tree.nodes.length - c < s.tree.nodes.length - s.tree_node := Nat.sub_lt_sub_left hbound hlt
  have hmul := Nat.mul_le_mul_left 3 hless
  rw [Nat.mul_succ] at hmul
  exact hmul

end Selecting

namespace Explores

variable {t : MctsTree} {s s' : Selecting} {ignore : Bool}

/-- Going down to a dead child, selection is about to mark the Black node it left. -/
theorem potential_down (h : Explores t s) (ht : Shape t) (hselectable : Selectable t) {n : GNode} {c : NodeId}
    (hpc : s.pc = .descend) (hv : s.tree.nodes[s.tree_node]? = some n) (hresponse : n.data.colour ≠ .Golden)
    (hc : c ∈ n.children) (hbest : s.tree.Dead c → ∀ d ∈ n.children, s.tree.Dead d)
    (hs' : s' = { pc := .backtrack, tree_node := c, tree := s.tree.modify c fun d => { d with selected := d.selected + 1 } }) :
    s'.potential < s.potential := by
  have hlinked := (h.shape ht).toLinked
  have hlive : ¬ s.tree.Dead s.tree_node := h.live (by rw [hpc]; exact fun hfalse => by cases hfalse)
  have hlt : s.tree_node < c := hlinked.parent_lt_child hv hc
  obtain ⟨m, hm, hparent⟩ := hlinked.child hv hc
  have hlength : s'.tree.nodes.length = s.tree.nodes.length := by rw [hs']; exact MctsTree.length_modify _ _ _
  have hunmarked : s'.unmarked = s.unmarked := by
    rw [hs']
    exact Selecting.unmarked_modify_counter .descend .backtrack s.tree_node c c s.tree _ fun _ => rfl
  have hiff : s'.tree.Dead s'.tree_node ↔ s.tree.Dead c := by
    rw [hs']
    exact MctsTree.dead_modify_counter s.tree c _ (fun _ => rfl) c
  obtain ⟨hlevel, hoffset, _⟩ := Selecting.digits_of_not_marking (Selecting.not_marking (s := s) (by simp [hpc]))
  refine Selecting.potential_lt hlength ?_
  by_cases hdead : s.tree.Dead c
  · left
    have hblack : n.data.colour = .Black := by
      rcases (h.offers ht hselectable hlive hv hresponse).2 with ⟨_, d, hd, hdlive⟩ | hblack
      · exact absurd (hbest hdead d hd) hdlive
      · exact hblack
    have hmarking : s'.Marking := by
      have hc' : s'.tree.nodes[s'.tree_node]? = some { m with data := { m.data with selected := m.data.selected + 1 } } := by
        rw [hs']
        exact MctsTree.getElem?_modify_self hm _
      have hv' : s'.tree.nodes[s.tree_node]? = some n := by
        rw [hs']
        exact (MctsTree.getElem?_modify_ne _ (Nat.ne_of_gt hlt) _).trans hv
      refine ⟨by rw [hs'], hiff.mpr hdead, ?_⟩
      rw [Selecting.below_black_eq hc' hparent hv']
      exact decide_eq_true hblack
    have hpos := Selecting.unmarked_pos hv hlive
    rw [(Selecting.digits_of_marking hmarking).1, hlevel, hunmarked]
    omega
  · right
    have hnot : ¬ s'.Marking := fun hmarking => hdead (hiff.mp hmarking.2.1)
    obtain ⟨hlevel', _, _, _, hoffset'⟩ := Selecting.digits_of_not_marking hnot
    refine ⟨by rw [hlevel, hlevel', hunmarked], ?_⟩
    have hheight := Selecting.height_lt hv hlt
    have hnode : s'.tree_node = c := by rw [hs']
    rw [hoffset hpc, hoffset' (by rw [hs']) (fun hd => hdead (hiff.mp hd)), Selecting.height, hlength, hnode]
    omega

/-- Marking a node is one step up, and the node above it is unmarked. -/
theorem potential_mark (h : Explores t s) (ht : Shape t) {n m : GNode} {p : NodeId} (hpc : s.pc = .backtrack)
    (hdead : s.tree.Dead s.tree_node) (hv : s.tree.nodes[s.tree_node]? = some n) (hparent : n.parent = some p)
    (hp : s.tree.nodes[p]? = some m) (hwhy : m.data.fully_explored = true ∨ m.data.colour = .Black)
    (hs' : s' = { pc := .backtrack, tree_node := p, tree := s.tree.modify p fun d => { d with fully_explored := true } }) :
    s'.potential < s.potential := by
  have hlinked := (h.shape ht).toLinked
  obtain ⟨hpreached, hplive⟩ := h.here.parent hlinked hv hparent
  have hunflagged := MctsTree.unflagged_of_live hp hplive
  have hblack : m.data.colour = .Black := hwhy.resolve_left (by rw [hunflagged]; exact Bool.false_ne_true)
  have hlength : s'.tree.nodes.length = s.tree.nodes.length := by rw [hs']; exact MctsTree.length_modify _ _ _
  have hunmarked : s'.unmarked + 1 = s.unmarked := by
    rw [hs']
    exact Potential.countP_modify_of_drop hp (by rw [hunflagged]; rfl) rfl
  have hmarking : s.Marking := by
    refine ⟨hpc, hdead, ?_⟩
    rw [Selecting.below_black_eq hv hparent hp]
    exact decide_eq_true hblack
  obtain ⟨hlevel, hoffset⟩ := Selecting.digits_of_marking hmarking
  have hdead' : s'.tree.Dead s'.tree_node := by
    rw [hs']
    exact (MctsTree.dead_modify_flag hp p).mpr (Or.inl rfl)
  refine Selecting.potential_lt hlength ?_
  by_cases hmarking' : s'.Marking
  · left
    have hne := hlinked.ne_root_of_black hp hblack
    obtain ⟨u, k, hu, hlt, hk, _⟩ := hlinked.parent hp hne
    obtain ⟨_, hulive⟩ := hpreached.parent hlinked hp hu
    have hk' : s'.tree.nodes[u]? = some k := by
      rw [hs']
      exact (MctsTree.getElem?_modify_ne _ (Nat.ne_of_gt hlt) _).trans hk
    have hulive' : ¬ s'.tree.Dead u := by
      rw [hs', MctsTree.dead_modify_flag hp]
      rintro (rfl | hold)
      · exact Nat.lt_irrefl _ hlt
      · exact hulive hold
    have hpos := Selecting.unmarked_pos hk' hulive'
    rw [(Selecting.digits_of_marking hmarking').1, hlevel]
    omega
  · right
    obtain ⟨hlevel', _, _, hoffset', _⟩ := Selecting.digits_of_not_marking hmarking'
    rw [hlevel, hlevel', hoffset, hoffset' (by rw [hs']) hdead', hlength]
    omega

/-- Every step of selection uses up some of the potential. -/
theorem potential_step (h : Explores t s) (ht : Shape t) (hselectable : Selectable t) (hpc : s.pc ≠ .done)
    (hstep : SelectStep ignore s s') : s'.potential < s.potential := by
  have hlinked := (h.shape ht).toLinked
  cases hstep with
  | arrive hdescend hv hgolden =>
    have hnot : ¬ Selecting.Marking { s with pc := .done } := Selecting.not_marking (fun hfalse => by cases hfalse)
    obtain ⟨hlevel, hoffset, _⟩ := Selecting.digits_of_not_marking (Selecting.not_marking (s := s) (by simp [hdescend]))
    refine Selecting.potential_lt rfl (Or.inr ⟨(Selecting.level_eq hnot).trans hlevel.symm, ?_⟩)
    rw [hoffset hdescend]
    exact Selecting.height_pos hv
  | down hdescend hv hresponse hc hbest =>
    exact h.potential_down ht hselectable hdescend hv hresponse hc hbest rfl
  | live hback hlive =>
    have hnot : ¬ Selecting.Marking { s with pc := .resume } := Selecting.not_marking (fun hfalse => by cases hfalse)
    obtain ⟨hlevel, _, _, _, hoffset⟩ := Selecting.digits_of_not_marking (fun hmarking : s.Marking => hlive hmarking.2.1)
    obtain ⟨hlevel', _, hoffset', _⟩ := Selecting.digits_of_not_marking hnot
    refine Selecting.potential_lt rfl (Or.inr ⟨hlevel'.trans hlevel.symm, ?_⟩)
    rw [hoffset hback hlive, hoffset' rfl]
    exact Nat.lt_succ_self _
  | mark hback hdead hv hparent hp hwhy =>
    exact h.potential_mark ht hback hdead hv hparent hp (hwhy.imp_right And.left) rfl
  | @back n m p hback hdead hv hparent hp hflag hwhy =>
    have hnotblack : m.data.colour ≠ .Black := by
      intro hblack
      obtain ⟨first, rest, hchildren, hfirst⟩ := hwhy.resolve_left (fun hnot => hnot hblack)
      rw [(h.only_child ht hselectable hback hdead hv hparent hp hblack).1] at hchildren
      cases hchildren
      exact hfirst hdead
    have hmarking : ¬ s.Marking := by
      rintro ⟨_, _, hbelow⟩
      rw [Selecting.below_black_eq hv hparent hp] at hbelow
      exact hnotblack (of_decide_eq_true hbelow)
    have hnot : ¬ Selecting.Marking { pc := .resume, tree_node := p, tree := s.tree } :=
      Selecting.not_marking (fun hfalse => by cases hfalse)
    obtain ⟨hlevel, _, _, hoffset, _⟩ := Selecting.digits_of_not_marking hmarking
    obtain ⟨hlevel', _, hoffset', _⟩ := Selecting.digits_of_not_marking hnot
    refine Selecting.potential_lt rfl (Or.inr ⟨hlevel'.trans hlevel.symm, ?_⟩)
    have hheight : 3 * (s.tree.nodes.length - p) ≤ 3 * s.tree.nodes.length := Nat.mul_le_mul_left 3 (Nat.sub_le _ _)
    rw [hoffset hback hdead, hoffset' rfl, Selecting.height]
    dsimp only
    omega
  | resume hresume =>
    have hnot : ¬ Selecting.Marking { s with pc := .descend } := Selecting.not_marking (fun hfalse => by cases hfalse)
    obtain ⟨hlevel, _, hoffset, _⟩ := Selecting.digits_of_not_marking (Selecting.not_marking (s := s) (by simp [hresume]))
    obtain ⟨hlevel', hoffset', _⟩ := Selecting.digits_of_not_marking hnot
    refine Selecting.potential_lt rfl (Or.inr ⟨hlevel'.trans hlevel.symm, ?_⟩)
    rw [hoffset hresume, hoffset' rfl]
    exact Nat.lt_succ_self _
  | stay hdone => exact absurd hdone hpc

end Explores

/-- A state of selection that is done is at a SimNode. -/
def Selecting.Arrived (s : Selecting) : Prop :=
  s.pc = .done → ∃ n, s.tree.nodes[s.tree_node]? = some n ∧ n.data.colour = .Golden

/-- The state that is reached when selection is done is a SimNode. -/
protected theorem Selecting.Arrived.step {ignore : Bool} {s s' : Selecting} (h : s.Arrived)
    (hstep : SelectStep ignore s s') : s'.Arrived := by
  cases hstep with
  | @arrive n _ hv hgolden => exact fun _ => ⟨n, hv, hgolden⟩
  | stay => exact h
  | _ => exact fun hfalse => by cases hfalse

/-- A SimNode without the score `-INFINITY` has a seed. -/
theorem GNode.seeds_of_live {n : GNode} (hgolden : n.data.colour = .Golden) (hlive : n.dead ≠ true) :
    n.data.seeds ≠ [] := by
  intro hnil
  apply hlive
  rw [GNode.dead, hgolden, TreeNodeData.seeds_count, hnil]
  simp

/-- What selection has to return: a SimNode with a seed. -/
def Selecting.Found (s : Selecting) : Prop :=
  s.pc = .done ∧ ∃ n, s.tree.nodes[s.tree_node]? = some n ∧ n.data.colour = .Golden ∧ n.data.seeds ≠ []

/-- When selection is done, it has found a seed: the SimNode it has arrived at is live. -/
theorem Explores.found {t : MctsTree} {s : Selecting} (h : Explores t s) (harrived : s.Arrived) (hpc : s.pc = .done) :
    s.Found := by
  obtain ⟨n, hv, hgolden⟩ := harrived hpc
  have hlive := h.live (by rw [hpc]; exact fun hfalse => by cases hfalse)
  rw [MctsTree.dead_iff hv] at hlive
  exact ⟨hpc, n, hv, hgolden, GNode.seeds_of_live hgolden hlive⟩

/-- With more fuel than potential the loop gets to a seed, and no assertion fails. -/
theorem Explores.loop {t : MctsTree} {s : Selecting} (h : Explores t s) (ht : Shape t) (hroot : ¬ t.Dead ROOT)
    (hselectable : Selectable t) (harrived : s.Arrived) {fuel : Nat} (hfuel : s.pc ≠ .done → s.potential < fuel)
    (oracles : Nat → Oracle) : Holds (fun _ => False) (select_loop oracles fuel s) Selecting.Found := by
  induction fuel generalizing s oracles with
  | zero =>
    have hdone : s.pc = .done := by
      by_contra hpc
      exact absurd (hfuel hpc) (Nat.not_lt_zero _)
    exact Holds.pure (h.found harrived hdone)
  | succ fuel ih =>
    have hstep : Holds (fun _ => False) (select_step (oracles 0) s) fun s' =>
        Explores t s' ∧ s'.Arrived ∧ (s'.pc ≠ .done → s'.potential < fuel) := by
      refine (h.step_is_safe ht hroot hselectable (oracles 0)).of_forall_ok ?_
      intro ignore log final s' hok
      have hcase := select_step_cases (h.shape ht).toLinked hok
      refine ⟨h.step ht.toLinked (Or.inr hselectable.prunable) hcase, harrived.step hcase, ?_⟩
      intro hpc'
      by_cases hpc : s.pc = .done
      · cases hcase with
        | stay => exact absurd hpc hpc'
        | _ => simp_all
      · have hless := h.potential_step ht hselectable hpc hcase
        have hbound := hfuel hpc
        omega
    exact Holds.bind hstep fun s' hs' => ih hs'.1 hs'.2.1 hs'.2.2 fun i => oracles (i + 1)

end aflnet.mcts
