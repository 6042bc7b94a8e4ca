import AflnetLegion.Mcts.Run

open Checked

namespace aflnet.mcts

/-- A node whose score is `-INFINITY`. -/
def GNode.dead (n : GNode) : Bool := n.data.fully_explored || (n.data.colour = .Golden && n.data.seeds_count = 0)

/-- `v` is there and its score is `-INFINITY`. -/
def MctsTree.Dead (t : MctsTree) (v : NodeId) : Prop := t.nodes[v]?.any GNode.dead = true

instance (t : MctsTree) (v : NodeId) : Decidable (t.Dead v) := inferInstanceAs (Decidable (_ = true))

/-- The score of a node, as the oracle completes it. -/
def GNode.score (n : GNode) (o : Oracle) (v : NodeId) : WithBot Nat :=
  if n.dead = true then ⊥ else WithBot.some (o.rank v)

/-- The score is `-INFINITY` exactly for the dead nodes, whatever the oracle says about the
others. -/
theorem GNode.score_eq_bot_iff (n : GNode) (o : Oracle) (v : NodeId) : n.score o v = ⊥ ↔ n.dead = true := by
  rw [GNode.score]
  split <;> simp_all

theorem MctsTree.dead_iff {t : MctsTree} {v : NodeId} {n : GNode} (hv : t.nodes[v]? = some n) :
    t.Dead v ↔ n.dead = true := by
  rw [MctsTree.Dead, hv, Option.any_some]

theorem MctsTree.unflagged_of_live {t : MctsTree} {v : NodeId} {n : GNode} (hv : t.nodes[v]? = some n)
    (hlive : ¬ t.Dead v) : n.data.fully_explored = false := by
  rw [MctsTree.dead_iff hv, GNode.dead, Bool.or_eq_true, not_or] at hlive
  exact Bool.eq_false_iff.mpr hlive.1

theorem tree_node_score_eq {t : MctsTree} {v : NodeId} {n : GNode} (hv : t.nodes[v]? = some n) (o : Oracle) :
    tree_node_score o t v = pure (n.score o v) := by
  rw [tree_node_score, get_tree_node_data_eq hv, pure_bind, GNode.score, GNode.dead]
  cases hflag : n.data.fully_explored with
  | true => rfl
  | false =>
    by_cases hempty : n.data.colour = .Golden ∧ n.data.seeds_count = 0
    · simp [hempty]
    · rw [not_and] at hempty
      by_cases hgolden : n.data.colour = .Golden <;> simp_all

/-- The ties `best_child` collects from the children `all` are valid indices of
children with the greatest score, and there are some if there is a child. -/
theorem collect_ties_spec {t : MctsTree} (o : Oracle) {all : List NodeId}
    (hall : ∀ c ∈ all, ∃ m, t.nodes[c]? = some m) {children : List NodeId} {index : Nat}
    (hsplit : all.drop index = children) (hindex : index ≤ all.length) {top : WithBot Nat} {ties : List Nat}
    (hties : ∀ i ∈ ties, ∃ c m, all[i]? = some c ∧ t.nodes[c]? = some m ∧ m.score o c = top)
    (htop : ∀ (i : Nat) (c : NodeId) (m : GNode), i < index → all[i]? = some c → t.nodes[c]? = some m →
      m.score o c ≤ top)
    (hsome : ties = [] → index = 0 ∧ top = ⊥) :
    ∃ final result, collect_ties o t children index top ties = pure result ∧
      (∀ i ∈ result, ∃ c m, all[i]? = some c ∧ t.nodes[c]? = some m ∧ m.score o c = final) ∧
      (∀ c ∈ all, ∀ m, t.nodes[c]? = some m → m.score o c ≤ final) ∧ (all ≠ [] → result ≠ []) := by
  induction children generalizing index top ties with
  | nil =>
    have hend : index = all.length := Nat.le_antisymm hindex (List.drop_eq_nil_iff.mp hsplit)
    refine ⟨top, ties, rfl, hties, ?_, ?_⟩
    · intro c hc m hm
      obtain ⟨i, hi⟩ := List.mem_iff_getElem?.mp hc
      exact htop i c m (by rw [hend]; exact (List.getElem?_eq_some_iff.mp hi).1) hi hm
    · intro hne hnil
      exact hne (List.eq_nil_of_length_eq_zero (hend ▸ (hsome hnil).1))
  | cons child children ih =>
    have hchild : all[index]? = some child := by
      rw [← List.head?_drop, hsplit]
      rfl
    have hrest : all.drop (index + 1) = children := by
      rw [← List.tail_drop, hsplit]
      rfl
    have hlt : index + 1 ≤ all.length := (List.getElem?_eq_some_iff.mp hchild).1
    obtain ⟨m, hm⟩ := hall child (List.mem_of_getElem? hchild)
    rw [collect_ties, tree_node_score_eq hm, pure_bind]
    have hbefore : ∀ {i : Nat} {c : NodeId} {k : GNode} {bound : WithBot Nat}, i < index + 1 → all[i]? = some c →
        t.nodes[c]? = some k → top ≤ bound → m.score o child ≤ bound → k.score o c ≤ bound := by
      intro i c k bound hi hc hk htop' hnew
      rcases Nat.lt_succ_iff_lt_or_eq.mp hi with hold | rfl
      · exact (htop i c k hold hc hk).trans htop'
      · rw [hchild] at hc
        cases hc
        rw [hm] at hk
        cases hk
        exact hnew
    by_cases hless : m.score o child < top
    · rw [if_pos hless]
      refine ih hrest hlt hties (fun i c k hi hc hk => hbefore hi hc hk (le_refl top) (le_of_lt hless)) ?_
      intro hnil
      rw [(hsome hnil).2] at hless
      exact absurd hless not_lt_bot
    · rw [if_neg hless]
      have hge : top ≤ m.score o child := not_lt.mp hless
      refine ih hrest hlt ?_ (fun i c k hi hc hk => hbefore hi hc hk hge (le_refl _)) (by simp)
      intro i hi
      rcases List.mem_append.mp hi with hold | hnew
      · split at hold
        · cases hold
        · rename_i heq
          obtain ⟨c, k, hc, hk, hscore⟩ := hties i hold
          exact ⟨c, k, hc, hk, hscore.trans (le_antisymm hge (not_lt.mp heq))⟩
      · rw [List.mem_singleton.mp hnew]
        exact ⟨child, m, hchild, hm, rfl⟩

namespace Linked

variable {t : MctsTree} {v : NodeId} {n : GNode}

theorem child_present (h : Linked t) (hv : t.nodes[v]? = some n) : ∀ c ∈ n.children, ∃ m, t.nodes[c]? = some m := by
  intro c hc
  obtain ⟨m, hm, _⟩ := h.child hv hc
  exact ⟨m, hm⟩

/-- `best_child` returns a child with the greatest score. -/
theorem best_child_max (h : Linked t) (hv : t.nodes[v]? = some n) (hne : n.children ≠ []) (o : Oracle) :
    ∃ c ∈ n.children, best_child o t v = pure c ∧ ∃ m, t.nodes[c]? = some m ∧
      ∀ d ∈ n.children, ∀ k, t.nodes[d]? = some k → k.score o d ≤ m.score o c := by
  rw [best_child, deref_eq hv, pure_bind]
  by_cases hone : n.children.length = 1
  · rw [if_pos hone]
    obtain ⟨c, hc⟩ := List.length_eq_one_iff.mp hone
    have hmem : c ∈ n.children := by rw [hc]; exact List.mem_singleton.mpr rfl
    obtain ⟨m, hm⟩ := h.child_present hv c hmem
    refine ⟨c, hmem, by rw [hc]; rfl, m, hm, ?_⟩
    intro d hd k hk
    rw [hc] at hd
    cases List.mem_singleton.mp hd
    rw [hm] at hk
    cases hk
    exact le_refl _
  · rw [if_neg hone]
    obtain ⟨final, result, heq, hresult, hmax, hsome⟩ := collect_ties_spec o (h.child_present hv)
      (show n.children.drop 0 = n.children from rfl) (Nat.zero_le _) (show ∀ i ∈ ([] : List Nat), _ by simp)
      (fun i c m hi => absurd hi (Nat.not_lt_zero i)) (fun _ => ⟨rfl, rfl⟩)
    rw [heq, pure_bind]
    have hpick : ∀ {i : Nat}, i < result.length → ∃ c ∈ n.children, nth_child n.children result[i]? = pure c ∧
        ∃ m, t.nodes[c]? = some m ∧ ∀ d ∈ n.children, ∀ k, t.nodes[d]? = some k → k.score o d ≤ m.score o c := by
      intro i hi
      obtain ⟨c, m, hc, hm, hscore⟩ := hresult result[i] (List.getElem_mem hi)
      refine ⟨c, List.mem_of_getElem? hc, by simp only [nth_child, List.getElem?_eq_getElem hi, hc], m, hm, ?_⟩
      rw [hscore]
      exact hmax
    have hpos : 0 < result.length := List.length_pos_iff.mpr (hsome hne)
    by_cases htie : result.length = 1
    · rw [if_pos htie]
      exact hpick hpos
    · rw [if_neg htie]
      exact hpick (Nat.mod_lt _ hpos)

/-- `best_child` returns a child, and a dead one only if all are dead. -/
theorem best_child_eq (h : Linked t) (hv : t.nodes[v]? = some n) (hne : n.children ≠ []) (o : Oracle) :
    ∃ c ∈ n.children, best_child o t v = pure c ∧ (t.Dead c → ∀ d ∈ n.children, t.Dead d) := by
  obtain ⟨c, hc, hbest, m, hm, hmax⟩ := h.best_child_max hv hne o
  refine ⟨c, hc, hbest, fun hdead d hd => ?_⟩
  obtain ⟨k, hk⟩ := h.child_present hv d hd
  have hle := hmax d hd k hk
  rw [(m.score_eq_bot_iff o c).mpr ((MctsTree.dead_iff hm).mp hdead), le_bot_iff, GNode.score_eq_bot_iff] at hle
  exact (MctsTree.dead_iff hk).mpr hle

/-- A node without children has no best child. -/
theorem best_child_leaf (hv : t.nodes[v]? = some n) (hnil : n.children = []) (o : Oracle) :
    best_child o t v = fail .out_of_bounds := by
  rw [best_child, deref_eq hv, pure_bind, hnil]
  rfl

/-- A node that is marked is fully explored, without a look at its children. -/
theorem is_fully_explored_flagged (hv : t.nodes[v]? = some n) (hflag : n.data.fully_explored = true) (o : Oracle) :
    is_fully_explored o t v = pure true := by
  rw [is_fully_explored, deref_eq hv, pure_bind, if_pos hflag]

theorem is_fully_explored_not_black (hv : t.nodes[v]? = some n) (hflag : n.data.fully_explored = false)
    (hcolour : n.data.colour ≠ .Black) (o : Oracle) : is_fully_explored o t v = pure false := by
  rw [is_fully_explored, deref_eq hv, pure_bind, if_neg (by simp [hflag]), if_pos hcolour]

/-- On a Black node the answer is that of its first child; if failed assertions
abort, it is also the only child. -/
theorem is_fully_explored_black (h : Linked t) (hv : t.nodes[v]? = some n) (hflag : n.data.fully_explored = false)
    (hcolour : n.data.colour = .Black) {o : Oracle} {ignore : Bool} {log final : List Assertion} {explored : Bool}
    (hret : is_fully_explored o t v ignore log = .ok (explored, final)) :
    ∃ first rest, n.children = first :: rest ∧ (explored = true ↔ t.Dead first) ∧ (ignore = false → rest = []) := by
  rw [is_fully_explored, deref_eq hv, pure_bind, if_neg (by simp [hflag]), if_neg (by simp [hcolour])] at hret
  obtain ⟨_, middle, hassert, hret⟩ := bind_eq_ok_iff.mp hret
  cases hchildren : n.children with
  | nil =>
    rw [hchildren] at hret
    cases hret
  | cons first rest =>
    rw [hchildren] at hret hassert
    obtain ⟨m, hm⟩ := h.child_present hv first (by rw [hchildren]; exact List.mem_cons_self ..)
    have hfirst : nth_child (first :: rest) (some 0) = pure first := rfl
    rw [hfirst, pure_bind, get_tree_node_data_eq hm, pure_bind] at hret
    obtain ⟨_, _, _, hret⟩ := bind_eq_ok_iff.mp hret
    rw [tree_node_score_eq hm, pure_bind] at hret
    cases hret
    refine ⟨first, rest, rfl, ?_, ?_⟩
    · rw [decide_eq_true_eq, GNode.score_eq_bot_iff, MctsTree.dead_iff hm]
    · rintro rfl
      rw [log_assert, soft_assert] at hassert
      split at hassert
      · rename_i hone
        exact List.eq_nil_of_length_eq_zero (Nat.succ.inj hone)
      · cases hassert

/-- With a single child that is no SimNode no assertion fails. -/
theorem is_fully_explored_chain (hv : t.nodes[v]? = some n) (hflag : n.data.fully_explored = false)
    (hcolour : n.data.colour = .Black) {c : NodeId} {m : GNode} (hchildren : n.children = [c])
    (hc : t.nodes[c]? = some m) (hgolden : m.data.colour ≠ .Golden) (o : Oracle) :
    is_fully_explored o t v = pure (decide (m.score o c = ⊥)) := by
  have hone : ([c] : List NodeId).length = 1 := rfl
  have hfirst : nth_child [c] (some 0) = pure c := rfl
  rw [is_fully_explored, deref_eq hv, pure_bind, if_neg (by simp [hflag]), if_neg (by simp [hcolour]), hchildren]
  simp only [log_assert, soft_assert_of_true hone, pure_bind, hfirst, get_tree_node_data_eq hc,
    soft_assert_of_true hgolden, tree_node_score_eq hc]

end Linked

/-- What one step of `select_tree_node` can do, without the oracle: it stops at a SimNode, goes
down to a child, goes back to the parent, which may be marked on the way, or goes on after a
live node. -/
inductive SelectStep (ignore : Bool) (s : Selecting) : Selecting → Prop where
  | arrive {n : GNode} (hpc : s.pc = .descend) (hv : s.tree.nodes[s.tree_node]? = some n)
      (hgolden : n.data.colour = .Golden) : SelectStep ignore s { s with pc := .done }
  | down {n : GNode} {c : NodeId} (hpc : s.pc = .descend) (hv : s.tree.nodes[s.tree_node]? = some n)
      (hresponse : n.data.colour ≠ .Golden) (hc : c ∈ n.children)
      (hbest : s.tree.Dead c → ∀ d ∈ n.children, s.tree.Dead d) :
      SelectStep ignore s
        { pc := .backtrack, tree_node := c, tree := s.tree.modify c fun d => { d with selected := d.selected + 1 } }
  | live (hpc : s.pc = .backtrack) (hlive : ¬ s.tree.Dead s.tree_node) : SelectStep ignore s { s with pc := .resume }
  | mark {n m : GNode} {p : NodeId} (hpc : s.pc = .backtrack) (hdead : s.tree.Dead s.tree_node)
      (hv : s.tree.nodes[s.tree_node]? = some n) (hparent : n.parent = some p) (hp : s.tree.nodes[p]? = some m)
      (hwhy : m.data.fully_explored = true ∨ (m.data.colour = .Black ∧ ∃ first rest, m.children = first :: rest ∧
        s.tree.Dead first ∧ (ignore = false → rest = []))) :
      SelectStep ignore s
        { pc := .backtrack, tree_node := p, tree := s.tree.modify p fun d => { d with fully_explored := true } }
  | back {n m : GNode} {p : NodeId} (hpc : s.pc = .backtrack) (hdead : s.tree.Dead s.tree_node)
      (hv : s.tree.nodes[s.tree_node]? = some n) (hparent : n.parent = some p) (hp : s.tree.nodes[p]? = some m)
      (hflag : m.data.fully_explored = false)
      (hwhy : m.data.colour ≠ .Black ∨ ∃ first rest, m.children = first :: rest ∧ ¬ s.tree.Dead first) :
      SelectStep ignore s { pc := .resume, tree_node := p, tree := s.tree }
  | resume (hpc : s.pc = .resume) : SelectStep ignore s { s with pc := .descend }
  | stay (hpc : s.pc = .done) : SelectStep ignore s s

/-- Following a pointer has worked only if there is a node. -/
theorem deref_ok {t : MctsTree} {v : NodeId} {n : GNode} {ignore : Bool} {log final : List Assertion}
    (h : deref t v ignore log = .ok (n, final)) : t.nodes[v]? = some n := by
  rw [deref] at h
  cases hv : t.nodes[v]? with
  | none =>
    rw [hv] at h
    cases h
  | some m =>
    rw [hv] at h
    cases h
    rfl

/-- The step down to a best child. -/
theorem select_descend_cases {o : Oracle} {s s' : Selecting} (h : Linked s.tree) (hpc : s.pc = .descend) {n : GNode}
    (hv : s.tree.nodes[s.tree_node]? = some n) (hresponse : n.data.colour ≠ .Golden) {ignore : Bool}
    {log final : List Assertion} (hstep : select_descend o s.tree s.tree_node ignore log = .ok (s', final)) :
    SelectStep ignore s s' := by
  by_cases hnil : n.children = []
  · rw [select_descend, Linked.best_child_leaf hv hnil o, fail_bind] at hstep
    cases hstep
  · obtain ⟨c, hc, hbest, hdead⟩ := h.best_child_eq hv hnil o
    obtain ⟨m, hm⟩ := h.child_present hv c hc
    have hm' := MctsTree.getElem?_modify_self hm fun d => { d with selected := d.selected + 1 }
    rw [select_descend, hbest, pure_bind, set_tree_node_data_eq hm, pure_bind, tree_node_score_eq hm', pure_bind,
      deref_eq hm', pure_bind] at hstep
    obtain ⟨_, _, _, hstep⟩ := bind_eq_ok_iff.mp hstep
    obtain ⟨_, _, _, hstep⟩ := bind_eq_ok_iff.mp hstep
    cases hstep
    exact .down hpc hv hresponse hc hdead

/-- The step back to the parent, which may be marked on the way. -/
theorem select_backtrack_cases {o : Oracle} {s s' : Selecting} (h : Linked s.tree) (hpc : s.pc = .backtrack) {n : GNode}
    (hv : s.tree.nodes[s.tree_node]? = some n) (hdead : s.tree.Dead s.tree_node) {ignore : Bool} {log final : List Assertion}
    (hstep : select_backtrack o s.tree s.tree_node ignore log = .ok (s', final)) : SelectStep ignore s s' := by
  rw [select_backtrack, deref_eq hv, pure_bind] at hstep
  obtain ⟨_, middle, _, hstep⟩ := bind_eq_ok_iff.mp hstep
  cases hparent : n.parent with
  | none =>
    rw [hparent] at hstep
    cases hstep
  | some p =>
    rw [hparent] at hstep
    obtain ⟨explored, last, hexplored, hstep⟩ := bind_eq_ok_iff.mp hstep
    obtain ⟨m, hp⟩ : ∃ m, s.tree.nodes[p]? = some m := by
      rw [is_fully_explored] at hexplored
      obtain ⟨m, _, hm, _⟩ := bind_eq_ok_iff.mp hexplored
      exact ⟨m, deref_ok hm⟩
    cases hflag : m.data.fully_explored with
    | true =>
      rw [Linked.is_fully_explored_flagged hp hflag] at hexplored
      cases hexplored
      rw [if_pos rfl, set_tree_node_data_eq hp, pure_bind] at hstep
      cases hstep
      exact .mark hpc hdead hv hparent hp (Or.inl hflag)
    | false =>
      by_cases hblack : m.data.colour = .Black
      · obtain ⟨first, rest, hchildren, hiff, honly⟩ := h.is_fully_explored_black hp hflag hblack hexplored
        split at hstep
        · rename_i hyes
          rw [set_tree_node_data_eq hp, pure_bind] at hstep
          cases hstep
          exact .mark hpc hdead hv hparent hp (Or.inr ⟨hblack, first, rest, hchildren, hiff.mp hyes, honly⟩)
        · rename_i hno
          cases hstep
          exact .back hpc hdead hv hparent hp hflag (Or.inr ⟨first, rest, hchildren, fun hd => hno (hiff.mpr hd)⟩)
      · rw [Linked.is_fully_explored_not_black hp hflag hblack] at hexplored
        cases hexplored
        rw [if_neg Bool.false_ne_true] at hstep
        cases hstep
        exact .back hpc hdead hv hparent hp hflag (Or.inl hblack)

/-- Every completed step is one of them. -/
theorem select_step_cases {o : Oracle} {s s' : Selecting} (h : Linked s.tree) {ignore : Bool}
    {log final : List Assertion} (hstep : select_step o s ignore log = .ok (s', final)) : SelectStep ignore s s' := by
  rw [select_step] at hstep
  cases hpc : s.pc with
  | descend =>
    rw [hpc] at hstep
    obtain ⟨d, middle, hget, hstep⟩ := bind_eq_ok_iff.mp hstep
    obtain ⟨n, _, hderef, hd⟩ := bind_eq_ok_iff.mp hget
    have hv := deref_ok hderef
    cases hd
    split at hstep
    · rename_i hgolden
      cases hstep
      exact .arrive hpc hv hgolden
    · rename_i hresponse
      exact select_descend_cases h hpc hv hresponse hstep
  | backtrack =>
    rw [hpc] at hstep
    obtain ⟨score, middle, hscore, hstep⟩ := bind_eq_ok_iff.mp hstep
    obtain ⟨d, middle', hget, _⟩ := bind_eq_ok_iff.mp hscore
    obtain ⟨n, _, hderef, _⟩ := bind_eq_ok_iff.mp hget
    have hv := deref_ok hderef
    rw [tree_node_score_eq hv] at hscore
    cases hscore
    split at hstep
    · rename_i hbot
      have hdead : s.tree.Dead s.tree_node := (MctsTree.dead_iff hv).mpr ((n.score_eq_bot_iff o s.tree_node).mp hbot)
      exact select_backtrack_cases h hpc hv hdead hstep
    · rename_i hnot
      cases hstep
      refine .live hpc ?_
      intro hdead
      exact hnot ((n.score_eq_bot_iff o s.tree_node).mpr ((MctsTree.dead_iff hv).mp hdead))
  | resume =>
    rw [hpc] at hstep
    obtain ⟨_, _, _, hstep⟩ := bind_eq_ok_iff.mp hstep
    obtain ⟨_, _, _, hstep⟩ := bind_eq_ok_iff.mp hstep
    cases hstep
    exact .resume hpc
  | done =>
    rw [hpc] at hstep
    cases hstep
    exact .stay hpc

end aflnet.mcts
