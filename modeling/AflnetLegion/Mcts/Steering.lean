import AflnetLegion.Mcts.Pruning

open Checked

namespace aflnet.mcts

/-- Selection can take this step, if the scores are right. -/
def CanStep (ignore : Bool) (s s' : Selecting) : Prop := ∃ o, Yields ignore (select_step o s) s'

/-- Selection can be stopped here: by a failed assertion or an invalid access. -/
def CanStop (ignore : Bool) (s : Selecting) : Prop := ∃ o, Stops ignore (select_step o s)

/-- Selection can be led from one state to another. -/
def Leads (ignore : Bool) : Selecting → Selecting → Prop := Relation.ReflTransGen (CanStep ignore)

/-- Failed assertions are ignored, or selection cannot be led to one. -/
def Unhindered (ignore : Bool) (s : Selecting) : Prop :=
  ignore = true ∨ ∀ s', Leads ignore s s' → ¬ CanStop ignore s'

/-- Selection that cannot be led to a failed assertion cannot be led there from a later state
either. -/
theorem Unhindered.of_leads {ignore : Bool} {s s' : Selecting} (h : Unhindered ignore s) (hleads : Leads ignore s s') :
    Unhindered ignore s' := h.imp_right fun hnever s'' hrest => hnever s'' (hleads.trans hrest)

/-- The choices that lead somewhere make up a run; the choice after them is free. -/
theorem Leads.exists_run {ignore : Bool} {s s' : Selecting} (h : Leads ignore s s') (last : Oracle) :
    ∃ oracles fuel, oracles fuel = last ∧ Yields ignore (select_loop oracles fuel s) s' := by
  induction h using Relation.ReflTransGen.head_induction_on with
  | refl => exact ⟨fun _ => last, 0, rfl, Yields.pure _⟩
  | head hstep _ ih =>
    obtain ⟨o, hyields⟩ := hstep
    obtain ⟨oracles, fuel, hlast, hrest⟩ := ih
    refine ⟨fun i => Nat.casesOn i o oracles, fuel + 1, hlast, ?_⟩
    rw [select_loop]
    exact hyields.bind hrest

/-- The node `c` has the greatest score, unless it is `-INFINITY`. -/
def Oracle.preferring (c : NodeId) : Oracle := { rank := fun v => if v = c then 1 else 0, rand := 0 }

/-- The SimNode of the root scores lowest, then older nodes score higher. -/
def oldest_first : Oracle := { rank := fun v => if v = 1 then 0 else 100 - v, rand := 0 }

/-- The tree after the choice of a child. -/
def MctsTree.count (t : MctsTree) (c : NodeId) : MctsTree := t.modify c fun d => { d with selected := d.selected + 1 }

/-- The tree after a node has been marked. -/
def MctsTree.flag (t : MctsTree) (p : NodeId) : MctsTree := t.modify p fun d => { d with fully_explored := true }

@[simp] theorem MctsTree.dead_count (t : MctsTree) (c v : NodeId) : (t.count c).Dead v ↔ t.Dead v :=
  dead_modify_counter t c _ (fun _ => rfl) v

theorem MctsTree.SameBy.count (t : MctsTree) (c : NodeId) : SameBy GNode.skeleton t (t.count c) :=
  SameBy.modify_counter t c _ fun _ => rfl

theorem MctsTree.SameBy.flag (t : MctsTree) (p : NodeId) : SameBy GNode.skeleton t (t.flag p) :=
  SameBy.modify_counter t p _ fun _ => rfl

namespace Linked

variable {t : MctsTree} {v p x : NodeId} {n m : GNode} {ignore : Bool}

/-- Any live child can be chosen. -/
theorem best_child_preferring (h : Linked t) (hv : t.nodes[v]? = some n) {c : NodeId} (hc : c ∈ n.children)
    (hlive : ¬ t.Dead c) : best_child (.preferring c) t v = pure c := by
  obtain ⟨b, _, hbest, m, hm, hmax⟩ := h.best_child_max hv (List.ne_nil_of_mem hc) (.preferring c)
  obtain ⟨k, hk⟩ := h.child_present hv c hc
  have hle := hmax c hc k hk
  rw [MctsTree.dead_iff hk] at hlive
  rw [GNode.score, if_neg hlive, GNode.score] at hle
  split at hle
  · rw [le_bot_iff] at hle
    cases hle
  · have hrank : 1 ≤ (if b = c then 1 else 0) := by
      have hsame : (Oracle.preferring c).rank c = 1 := if_pos rfl
      rw [WithBot.coe_le_coe, hsame] at hle
      exact hle
    split at hrank
    · rename_i heq
      rw [← heq]
      rw [← heq] at hbest
      exact hbest
    · cases hrank

/-- The step from a node to the child `best_child` returns. -/
theorem select_descend_eq (h : Linked t) (hv : t.nodes[v]? = some n) {c : NodeId} (hc : c ∈ n.children) {o : Oracle}
    (hbest : best_child o t v = pure c) :
    select_descend o t v = (do
      log_assert (¬ t.Dead c ∨ n.data.colour = .Black) .best_child_is_live
      pure ⟨.backtrack, c, t.count c⟩) := by
  obtain ⟨m, hm, hparent⟩ := h.child hv hc
  have hm' := MctsTree.getElem?_modify_self hm fun d => { d with selected := d.selected + 1 }
  have hv' : (t.modify c fun d => { d with selected := d.selected + 1 }).nodes[v]? = some n := by
    rw [MctsTree.getElem?_modify_ne _ (Nat.ne_of_gt (h.parent_lt_child hv hc)), hv]
  rw [select_descend, hbest, pure_bind, set_tree_node_data_eq hm, pure_bind, tree_node_score_eq hm', pure_bind,
    deref_eq hm', pure_bind]
  simp only [parent_is_black, hparent, get_tree_node_data_eq hv', pure_bind]
  have hiff : (⊥ < GNode.score { m with data := { m.data with selected := m.data.selected + 1 } } o c ∨
      decide (n.data.colour = .Black) = true) ↔ (¬ t.Dead c ∨ n.data.colour = .Black) := by
    rw [bot_lt_iff_ne_bot, Ne, GNode.score_eq_bot_iff, decide_eq_true_eq, MctsTree.dead_iff hm]
    rfl
  exact congrArg (fun check : M Unit => check >>= fun _ => pure _) (soft_assert_congr hiff _)

/-- At the head of the outer loop a step is the one down from the node. -/
theorem select_step_descend (hv : t.nodes[v]? = some n) (hresponse : n.data.colour ≠ .Golden) (o : Oracle) :
    select_step o ⟨.descend, v, t⟩ = select_descend o t v := by
  rw [select_step]
  dsimp only
  rw [get_tree_node_data_eq hv, pure_bind, if_neg hresponse]

/-- Selection can go down to any live child, by an oracle that prefers it. -/
theorem can_descend (h : Linked t) (hv : t.nodes[v]? = some n) (hresponse : n.data.colour ≠ .Golden)
    {c : NodeId} (hc : c ∈ n.children) (hlive : ¬ t.Dead c) :
    CanStep ignore ⟨.descend, v, t⟩ ⟨.backtrack, c, t.count c⟩ := by
  refine ⟨.preferring c, ?_⟩
  rw [select_step_descend hv hresponse, h.select_descend_eq hv hc (h.best_child_preferring hv hc hlive)]
  have hpass : ¬ t.Dead c ∨ n.data.colour = .Black := Or.inl hlive
  exact (Yields.soft_assert (Or.inl hpass) _).bind (Yields.pure _)

/-- From a Black node selection goes to some child, dead or not. -/
theorem can_descend_black (h : Linked t) (hv : t.nodes[v]? = some n) (hblack : n.data.colour = .Black)
    (hne : n.children ≠ []) :
    ∃ c ∈ n.children, CanStep ignore ⟨.descend, v, t⟩ ⟨.backtrack, c, t.count c⟩ := by
  obtain ⟨c, hc, hbest, _⟩ := h.best_child_eq hv hne (.preferring v)
  refine ⟨c, hc, .preferring v, ?_⟩
  rw [select_step_descend hv (by rw [hblack]; exact fun hfalse => by cases hfalse), h.select_descend_eq hv hc hbest]
  have hpass : ¬ t.Dead c ∨ n.data.colour = .Black := Or.inr hblack
  exact (Yields.soft_assert (Or.inl hpass) _).bind (Yields.pure _)

/-- A node that is not Black needs a live child. -/
theorem can_stop_descending (h : Linked t) (hv : t.nodes[v]? = some n) (hresponse : n.data.colour ≠ .Golden)
    (hnot : n.data.colour ≠ .Black ∨ n.children = []) (hall : ∀ c ∈ n.children, t.Dead c) :
    CanStop false ⟨.descend, v, t⟩ := by
  refine ⟨.preferring v, ?_⟩
  rw [select_step_descend hv hresponse]
  by_cases hnil : n.children = []
  · rw [select_descend, best_child_leaf hv hnil, fail_bind]
    exact Stops.fail _
  · obtain ⟨c, hc, hbest, _⟩ := h.best_child_eq hv hnil (.preferring v)
    rw [h.select_descend_eq hv hc hbest]
    refine (Stops.soft_assert ?_ _).bind_left _
    rintro (hlive | hblack)
    · exact hlive (hall c hc)
    · exact hnot.elim (fun hnot => hnot hblack) hnil

theorem can_resume (hv : t.nodes[v]? = some n) (hlive : ¬ t.Dead v) :
    CanStep ignore ⟨.resume, v, t⟩ ⟨.descend, v, t⟩ := by
  have hscore : ⊥ < n.score (.preferring v) v := by
    rw [bot_lt_iff_ne_bot, Ne, GNode.score_eq_bot_iff, ← MctsTree.dead_iff hv]
    exact hlive
  refine ⟨.preferring v, ?_⟩
  rw [select_step]
  dsimp only
  rw [tree_node_score_eq hv, pure_bind]
  exact (Yields.soft_assert (Or.inl hscore) _).bind (Yields.pure _)

/-- Selection goes down again from a live node. -/
theorem leads_on (hv : t.nodes[v]? = some n) (hlive : ¬ t.Dead v) :
    Leads ignore ⟨.backtrack, v, t⟩ ⟨.descend, v, t⟩ := by
  have hscore : n.score (.preferring v) v ≠ ⊥ := by
    rw [Ne, GNode.score_eq_bot_iff, ← MctsTree.dead_iff hv]
    exact hlive
  have hlive_step : CanStep ignore ⟨.backtrack, v, t⟩ ⟨.resume, v, t⟩ := by
    refine ⟨.preferring v, ?_⟩
    rw [select_step]
    dsimp only
    rw [tree_node_score_eq hv, pure_bind, if_neg hscore]
    exact Yields.pure _
  exact (Relation.ReflTransGen.single hlive_step).tail (can_resume hv hlive)

theorem leads_down (h : Linked t) (hv : t.nodes[v]? = some n) (hresponse : n.data.colour ≠ .Golden)
    {c : NodeId} (hc : c ∈ n.children) (hlive : ¬ t.Dead c) :
    Leads ignore ⟨.descend, v, t⟩ ⟨.descend, c, t.count c⟩ := by
  obtain ⟨k, hk⟩ := h.child_present hv c hc
  have hk' := MctsTree.getElem?_modify_self hk fun d => { d with selected := d.selected + 1 }
  exact (Relation.ReflTransGen.single (h.can_descend hv hresponse hc hlive)).trans
    (leads_on hk' fun hdead => hlive ((MctsTree.dead_count t c c).mp hdead))

/-- The step back from a dead node depends on what `is_fully_explored` says of its
parent. -/
theorem select_step_backtrack (hv : t.nodes[v]? = some n) (hdead : t.Dead v) (hparent : n.parent = some p)
    (hp : t.nodes[p]? = some m) (o : Oracle) :
    select_step o ⟨.backtrack, v, t⟩ = (do
      let explored ← is_fully_explored o t p
      pure (if explored then ⟨.backtrack, p, t.flag p⟩ else ⟨.resume, p, t⟩)) := by
  have hbot : n.score o v = ⊥ := (n.score_eq_bot_iff o v).mpr ((MctsTree.dead_iff hv).mp hdead)
  have hinner : G_NODE_IS_ROOT n = false := by rw [G_NODE_IS_ROOT, hparent]; rfl
  rw [select_step]
  dsimp only
  rw [tree_node_score_eq hv, pure_bind, if_pos hbot, select_backtrack, deref_eq hv, pure_bind, log_assert,
    soft_assert_of_true hinner, pure_bind, hparent]
  dsimp only
  congr 1
  funext explored
  cases explored with
  | false => rfl
  | true =>
    rw [if_pos rfl, if_pos rfl, set_tree_node_data_eq hp, pure_bind]
    rfl

/-- What `is_fully_explored` looks at in a Black node. -/
theorem is_fully_explored_first (hp : t.nodes[p]? = some m) (hflag : m.data.fully_explored = false)
    (hblack : m.data.colour = .Black) {first : NodeId} {rest : List NodeId} (hchildren : m.children = first :: rest)
    {k : GNode} (hfirst : t.nodes[first]? = some k) (o : Oracle) :
    is_fully_explored o t p = (do
      log_assert (m.children.length = 1) .black_has_one_child
      log_assert (k.data.colour ≠ .Golden) .black_child_is_not_golden
      pure (decide (k.score o first = ⊥))) := by
  have hnth : nth_child (first :: rest) (some 0) = pure first := rfl
  rw [is_fully_explored, deref_eq hp, pure_bind, if_neg (by simp [hflag]), if_neg (by simp [hblack]), hchildren, hnth]
  simp only [pure_bind, get_tree_node_data_eq hfirst, tree_node_score_eq hfirst]

/-- A Black node whose first child is dead gets marked, unless an assertion aborts. -/
theorem can_mark (h : Linked t) (hv : t.nodes[v]? = some n) (hdead : t.Dead v) (hparent : n.parent = some p)
    (hp : t.nodes[p]? = some m) (hblack : m.data.colour = .Black) {first : NodeId} {rest : List NodeId}
    (hchildren : m.children = first :: rest) (hfirst : t.Dead first) (hgo : Unhindered ignore ⟨.backtrack, v, t⟩) :
    CanStep ignore ⟨.backtrack, v, t⟩ ⟨.backtrack, p, t.flag p⟩ := by
  cases hflag : m.data.fully_explored with
  | true =>
    refine ⟨.preferring v, ?_⟩
    rw [select_step_backtrack hv hdead hparent hp, is_fully_explored_flagged hp hflag, pure_bind]
    exact Yields.pure _
  | false =>
    obtain ⟨k, hk⟩ := h.child_present hp first (by rw [hchildren]; exact List.mem_cons_self ..)
    have hanswer : decide (k.score (.preferring v) first = ⊥) = true :=
      decide_eq_true ((k.score_eq_bot_iff _ _).mpr ((MctsTree.dead_iff hk).mp hfirst))
    have hstep := select_step_backtrack hv hdead hparent hp (.preferring v)
    rw [is_fully_explored_first hp hflag hblack hchildren hk, hanswer] at hstep
    by_cases hlength : m.children.length = 1 ∨ ignore = true
    · by_cases hcolour : k.data.colour ≠ .Golden ∨ ignore = true
      · refine ⟨.preferring v, ?_⟩
        rw [hstep]
        exact ((Yields.soft_assert hlength _).bind ((Yields.soft_assert hcolour _).bind (Yields.pure true))).bind
          (Yields.pure _)
      · rw [not_or, Bool.not_eq_true] at hcolour
        obtain ⟨hcolour, rfl⟩ := hcolour
        refine absurd ⟨.preferring v, ?_⟩ (hgo.resolve_left Bool.false_ne_true _ .refl)
        rw [hstep]
        exact (Stops.bind (Yields.soft_assert hlength _) ((Stops.soft_assert hcolour _).bind_left _)).bind_left _
    · rw [not_or, Bool.not_eq_true] at hlength
      obtain ⟨hlength, rfl⟩ := hlength
      refine absurd ⟨.preferring v, ?_⟩ (hgo.resolve_left Bool.false_ne_true _ .refl)
      rw [hstep]
      exact ((Stops.soft_assert hlength _).bind_left _).bind_left _

/-- A Black node needs a single child, when selection comes back to it. -/
theorem can_stop_backtracking (h : Linked t) (hv : t.nodes[v]? = some n) (hdead : t.Dead v)
    (hparent : n.parent = some p) (hp : t.nodes[p]? = some m) (hflag : m.data.fully_explored = false)
    (hblack : m.data.colour = .Black) (hlength : m.children.length ≠ 1) : CanStop false ⟨.backtrack, v, t⟩ := by
  obtain ⟨first, rest, hchildren⟩ := List.exists_cons_of_ne_nil
    (List.ne_nil_of_mem (h.mem_children_of_parent hv hparent hp))
  obtain ⟨k, hk⟩ := h.child_present hp first (by rw [hchildren]; exact List.mem_cons_self ..)
  refine ⟨.preferring v, ?_⟩
  rw [select_step_backtrack hv hdead hparent hp, is_fully_explored_first hp hflag hblack hchildren hk]
  exact ((Stops.soft_assert hlength _).bind_left _).bind_left _

/-- From a dead child selection goes back to a White node, and down again. -/
theorem leads_back (hv : t.nodes[v]? = some n) (hdead : t.Dead v) (hparent : n.parent = some p)
    (hp : t.nodes[p]? = some m) (hlive : ¬ t.Dead p) (hblack : m.data.colour ≠ .Black) :
    Leads ignore ⟨.backtrack, v, t⟩ ⟨.descend, p, t⟩ := by
  have hflag := MctsTree.unflagged_of_live hp hlive
  have hback : CanStep ignore ⟨.backtrack, v, t⟩ ⟨.resume, p, t⟩ := by
    refine ⟨.preferring v, ?_⟩
    rw [select_step_backtrack hv hdead hparent hp, is_fully_explored_not_black hp hflag hblack, pure_bind]
    exact Yields.pure _
  exact (Relation.ReflTransGen.single hback).tail (can_resume hp hlive)

end Linked

/-- What selection has changed once it has exhausted the node `x`: no nodes died but
`x` and nodes below it. -/
structure Exhausts (t : MctsTree) (x : NodeId) (u : MctsTree) : Prop where
  same : MctsTree.SameBy GNode.skeleton t u
  kept : ∀ v, t.Dead v → u.Dead v
  dead : u.Dead x
  frame : ∀ (v : NodeId) (n : GNode), t.nodes[v]? = some n → u.Dead v → t.Dead v ∨ v = x ∨
    ∃ p, n.parent = some p ∧ x ≤ p

/-- Selection can be led through an exhausted node until it is marked. -/
theorem Exhausted.leads {t : MctsTree} {x : NodeId} {ignore : Bool} (hx : Exhausted t x) (ht : Linked t)
    (hlive : ¬ t.Dead x) {u : MctsTree} (hsame : MctsTree.SameBy GNode.skeleton t u) (hdead : ∀ v, u.Dead v ↔ t.Dead v)
    (hgo : Unhindered ignore ⟨.descend, x, u⟩) :
    ∃ u', Leads ignore ⟨.descend, x, u⟩ ⟨.backtrack, x, u'⟩ ∧ Exhausts t x u' := by
  induction hx generalizing u with
  | dead h => exact absurd h hlive
  | @black x n hv hblack hne hall ih =>
    obtain ⟨first, rest, hchildren⟩ := List.exists_cons_of_ne_nil hne
    have hu := ht.of_links hsame.links
    obtain ⟨n', hn', hchildren', hcolour', _⟩ := hsame.links.exists_links hv
    rw [hblack] at hcolour'
    -- down to a child, and through it if it is alive, so that the first child is dead
    obtain ⟨c, hc, w, hleads, hsame_w, hkept, hcdead, hfirst, hframe⟩ : ∃ c ∈ n.children, ∃ w,
        Leads ignore ⟨.descend, x, u⟩ ⟨.backtrack, c, w⟩ ∧ MctsTree.SameBy GNode.skeleton t w ∧
          (∀ v, t.Dead v → w.Dead v) ∧ w.Dead c ∧ w.Dead first ∧ ∀ (v : NodeId) (k : GNode), t.nodes[v]? = some k →
            w.Dead v → t.Dead v ∨ ∃ p, k.parent = some p ∧ x ≤ p := by
      by_cases hsome : ∃ c ∈ n.children, ¬ t.Dead c ∧ (c = first ∨ t.Dead first)
      · obtain ⟨c, hc, hclive, hfirst⟩ := hsome
        have hdown : Leads ignore ⟨.descend, x, u⟩ ⟨.descend, c, u.count c⟩ :=
          hu.leads_down hn' (by rw [hcolour']; exact fun hfalse => by cases hfalse) (by rw [hchildren']; exact hc)
            fun h => hclive ((hdead c).mp h)
        obtain ⟨w, hthrough, hexhausts⟩ := ih c hc hclive (hsame.trans (MctsTree.SameBy.count u c))
          (fun v => (MctsTree.dead_count u c v).trans (hdead v)) (hgo.of_leads hdown)
        refine ⟨c, hc, w, hdown.trans hthrough, hexhausts.same, hexhausts.kept, hexhausts.dead, ?_, ?_⟩
        · rcases hfirst with rfl | hold
          · exact hexhausts.dead
          · exact hexhausts.kept first hold
        · intro v k hvk hvdead
          rcases hexhausts.frame v k hvk hvdead with hold | rfl | ⟨p, hp, hle⟩
          · exact Or.inl hold
          · obtain ⟨k', hk', hparent⟩ := ht.child hv hc
            rw [hvk] at hk'
            cases hk'
            exact Or.inr ⟨x, hparent, le_refl _⟩
          · exact Or.inr ⟨p, hp, Nat.le_trans (Nat.le_of_lt (ht.parent_lt_child hv hc)) hle⟩
      · have hfirst : t.Dead first := by
          by_contra hnot
          exact hsome ⟨first, by rw [hchildren]; exact List.mem_cons_self .., hnot, Or.inl rfl⟩
        have hall_dead : ∀ c ∈ n.children, t.Dead c := by
          intro c hc
          by_contra hnot
          exact hsome ⟨c, hc, hnot, Or.inr hfirst⟩
        obtain ⟨c, hc, hdown⟩ : ∃ c ∈ n'.children, CanStep ignore ⟨.descend, x, u⟩ ⟨.backtrack, c, u.count c⟩ :=
          hu.can_descend_black hn' hcolour' (by rw [hchildren']; exact hne)
        rw [hchildren'] at hc
        have hdead_c := fun v => (MctsTree.dead_count u c v).trans (hdead v)
        exact ⟨c, hc, u.count c, .single hdown, hsame.trans (MctsTree.SameBy.count u c), fun v hold => (hdead_c v).mpr hold,
          (hdead_c c).mpr (hall_dead c hc), (hdead_c first).mpr hfirst, fun v k _ hvdead => Or.inl ((hdead_c v).mp hvdead)⟩
    -- back to the node, which gets marked
    have hw := ht.of_links hsame_w.links
    obtain ⟨m, hm, hchildren_w, hcolour_w, _⟩ := hsame_w.links.exists_links hv
    obtain ⟨k, hk, hparent⟩ := hw.child hm (show c ∈ m.children by rw [hchildren_w]; exact hc)
    have hmark := hw.can_mark hk hcdead hparent hm (hcolour_w.trans hblack) (hchildren_w.trans hchildren) hfirst
      (hgo.of_leads hleads)
    have hiff := MctsTree.dead_modify_flag hm
    refine ⟨w.flag x, hleads.tail hmark, hsame_w.trans (MctsTree.SameBy.flag w x), fun v hold => ?_, ?_, ?_⟩
    · exact (hiff v).mpr (Or.inr (hkept v hold))
    · exact (hiff x).mpr (Or.inl rfl)
    · intro v j hvj hvdead
      rcases (hiff v).mp hvdead with rfl | hold
      · exact Or.inr (Or.inl rfl)
      · exact (hframe v j hvj hold).imp_right Or.inr

/-- Selection can be led to every live node it can get to, and no node dies on the
way. -/
theorem Reached.leads {t : MctsTree} {v : NodeId} {ignore : Bool} (hv : Reached t v) (ht : Linked t)
    (hlive : ¬ t.Dead v) : ∃ u, Leads ignore (.start t) ⟨.descend, v, u⟩ ∧ MctsTree.SameBy GNode.skeleton t u ∧
      ∀ w, u.Dead w ↔ t.Dead w := by
  induction hv with
  | root => exact ⟨t.count ROOT, .refl, MctsTree.SameBy.count t ROOT, MctsTree.dead_count t ROOT⟩
  | @child p c n _ hplive hn hresponse hc ih =>
    obtain ⟨u, hleads, hsame, hdead⟩ := ih hplive
    obtain ⟨n', hn', hchildren, hcolour, _⟩ := hsame.links.exists_links hn
    have hdown : Leads ignore ⟨.descend, p, u⟩ ⟨.descend, c, u.count c⟩ :=
      (ht.of_links hsame.links).leads_down hn' (by rw [hcolour]; exact hresponse) (by rw [hchildren]; exact hc)
        fun h => hlive ((hdead c).mp h)
    exact ⟨u.count c, hleads.trans hdown, hsame.trans (MctsTree.SameBy.count u c),
      fun w => (MctsTree.dead_count u c w).trans (hdead w)⟩

end aflnet.mcts
