import AflnetLegion.Mcts.Steering

open Checked

namespace aflnet.mcts

/-- Whenever `select_tree_node` marks a node of `t`, which is its step from one round
of the inner loop to the next, every child of that node has the score `-INFINITY`. -/
def PrunesSoundly (ignore : Bool) (t : MctsTree) : Prop :=
  ∀ (oracles : Nat → Oracle) (fuel : Nat) (log middle final : List Assertion) (s s' : Selecting) (n : GNode),
    select_tree_node oracles fuel t ROOT ignore log = .ok (s, middle) → s.pc = .backtrack →
    select_step (oracles fuel) s ignore middle = .ok (s', final) → s'.pc = .backtrack →
    s.tree.nodes[s'.tree_node]? = some n →
    n.data.fully_explored = false ∧ s'.tree = s.tree.flag s'.tree_node ∧
      ∀ c ∈ n.children, ∀ o, tree_node_score o s.tree c = pure ⊥

/-- If assertions abort, or if the tree is one on which marking hides nothing, then no live
child is hidden. -/
theorem Linked.prunes_soundly {ignore : Bool} {t : MctsTree} (ht : Linked t) (hroot : ¬ t.Dead ROOT)
    (hprune : ignore = false ∨ Prunable t) : PrunesSoundly ignore t := by
  intro oracles fuel log middle final s s' n hselect hpc hstep hmark hn
  have hexplores := Explores.steps ht hroot hprune (select_tree_node_steps ht hselect)
  have hlinked := hexplores.linked ht
  cases select_step_cases hlinked hstep with
  | arrive | live | back | resume | stay => simp_all
  | down hdescend =>
    rw [hpc] at hdescend
    cases hdescend
  | mark _ hdead hv hparent hp hwhy =>
    rw [hp] at hn
    cases hn
    obtain ⟨_, _, hall⟩ := hexplores.mark_sound ht hprune hpc hdead hv hparent hp hwhy
    obtain ⟨_, hlive⟩ := hexplores.here.parent hlinked hv hparent
    refine ⟨?_, rfl, ?_⟩
    · exact MctsTree.unflagged_of_live hp hlive
    · intro c hc o
      obtain ⟨k, hk⟩ := hlinked.child_present hp c hc
      rw [tree_node_score_eq hk, (k.score_eq_bot_iff o c).mpr ((MctsTree.dead_iff hk).mp (hall c hc))]

/-- If failed assertions are ignored, selection can be led to a Black node that is
marked too early. -/
theorem Linked.prunable_of_prunes_soundly {t : MctsTree} (ht : Linked t) (h : PrunesSoundly true t) : Prunable t := by
  intro v x d first rest n hreached hlive hv hblack hchildren hx hxlive hexhausted hfirst hd hdlive
  by_contra hne
  obtain ⟨u, hreach, hsame, hdead⟩ : ∃ u, Leads true (.start t) ⟨.descend, v, u⟩ ∧
    MctsTree.SameBy GNode.skeleton t u ∧ ∀ w, u.Dead w ↔ t.Dead w := hreached.leads ht hlive
  obtain ⟨n', hn', hchildren', hcolour', _⟩ := hsame.links.exists_links hv
  have hdown : Leads true ⟨.descend, v, u⟩ ⟨.descend, x, u.count x⟩ :=
    (ht.of_links hsame.links).leads_down hn' (by rw [hcolour', hblack]; exact fun hfalse => by cases hfalse)
      (by rw [hchildren']; exact hx) fun hxdead => hxlive ((hdead x).mp hxdead)
  obtain ⟨w, hthrough, hexhausts⟩ := hexhausted.leads ht hxlive (hsame.trans (MctsTree.SameBy.count u x))
    (fun y => (MctsTree.dead_count u x y).trans (hdead y)) (Or.inl rfl)
  -- the child `x` is dead, and now its parent gets marked
  have hw := ht.of_links hexhausts.same.links
  obtain ⟨m, hm, hchildren_w, hcolour_w, _⟩ := hexhausts.same.links.exists_links hv
  obtain ⟨k, hk, hparent⟩ := hw.child hm (show x ∈ m.children by rw [hchildren_w]; exact hx)
  have hfirst_w : w.Dead first := by
    rcases hfirst with rfl | hold
    · exact hexhausts.dead
    · exact hexhausts.kept first hold
  obtain ⟨o, hmark⟩ := hw.can_mark hk hexhausts.dead hparent hm (hcolour_w.trans hblack) (hchildren_w.trans hchildren)
    hfirst_w (Or.inl rfl)
  obtain ⟨oracles, fuel, rfl, hrun⟩ := Leads.exists_run ((hreach.trans hdown).trans hthrough) o
  obtain ⟨middle, hselect⟩ := hrun []
  obtain ⟨final, hstep⟩ := hmark middle
  rw [← select_tree_node_eq ht] at hselect
  obtain ⟨_, _, hall⟩ := h oracles fuel [] middle final _ _ m hselect rfl hstep rfl hm
  have hddead : w.Dead d := by
    obtain ⟨j, hj⟩ := hw.child_present hm d (by rw [hchildren_w]; exact hd)
    have hscore := hall d (by rw [hchildren_w]; exact hd) (.preferring d)
    rw [tree_node_score_eq hj] at hscore
    exact (MctsTree.dead_iff hj).mpr ((j.score_eq_bot_iff _ _).mp (pure_injective hscore))
  obtain ⟨j, hj, hjparent⟩ := ht.child hv hd
  rcases hexhausts.frame d j hj hddead with hold | heq | ⟨p, hp, hle⟩
  · exact hdlive hold
  · exact hne heq
  · rw [hjparent] at hp
    cases hp
    exact Nat.not_le_of_lt (ht.parent_lt_child hv hx) hle

/-- On every reachable tree selection marks only nodes all of whose children have the
score `-INFINITY`, if and only if failed assertions abort or the tree is prunable. -/
theorem Run.pruning_is_sound_iff {Ok : MctsTree → queue_entry → List UInt32 → Prop} {calls : List Call} {t : MctsTree}
    (hrun : Run Ok calls t) (ignore : Bool) : PrunesSoundly ignore t ↔ ignore = false ∨ Prunable t := by
  constructor
  · intro h
    cases ignore with
    | false => exact Or.inl rfl
    | true => exact Or.inr (hrun.linked.prunable_of_prunes_soundly h)
  · exact hrun.linked.prunes_soundly hrun.root_live

/-- One request answered by the codes 1, `code` and `last` at once. -/
def long_burst_entry (code last : UInt32) : queue_entry :=
  .of_regions "id:000006" [.annotated 0 9 [0, 1, code, last]]

/-- After a single burst the Black node is marked only when its one child is dead. -/
theorem mark_after_one_burst : ∃ s middle, select_tree_node (fun _ => oldest_first) 7
    (MctsTree.initial.expand (long_burst_entry 2 3) [0, 1, 2, 3]).1 ROOT false [] = .ok (s, middle) ∧
      tree_node_score oldest_first s.tree 4 = pure ⊥ := by
  have hrun := (Run.initial : Run (fun _ _ _ => True) [] .initial).expand (q := long_burst_entry 2 3)
    (show True from trivial) (by decide) (show 2 ≤ ([0, 1, 2, 3] : List UInt32).length by decide)
  have hselect : select_tree_node (fun _ => oldest_first) 7
    (MctsTree.initial.expand (long_burst_entry 2 3) [0, 1, 2, 3]).1 ROOT false [] = .ok (_, []) := rfl
  obtain ⟨_, _, hdead⟩ := (Run.pruning_is_sound_iff hrun false).mpr (Or.inl rfl) _ _ _ _ _ _ _ _ hselect rfl rfl rfl rfl
  exact ⟨_, _, hselect, hdead 4 (List.mem_singleton.mpr rfl) oldest_first⟩

/-- Two bursts give a Black node two live children. If failed assertions are only
logged, selection marks it as soon as the first of them is exhausted. -/
theorem mark_hides_live_child : ∃ calls t, Run (fun _ _ _ => True) calls t ∧
    ∃ s s' middle final, select_tree_node (fun _ => oldest_first) 8 t ROOT true [] = .ok (s, middle) ∧
      s.pc = .backtrack ∧ select_step oldest_first s true middle = .ok (s', final) ∧ s'.pc = .backtrack ∧
      s'.tree_node = 2 ∧ s.tree.nodes[2]?.map GNode.children = some [3, 6] ∧
      s.tree.nodes[6]?.map GNode.dead = some false := by
  have hfirst := (Run.initial : Run (fun _ _ _ => True) [] .initial).expand (q := long_burst_entry 2 3)
    (show True from trivial) (by decide) (show 2 ≤ ([0, 1, 2, 3] : List UInt32).length by decide)
  have hrun := hfirst.expand (q := long_burst_entry 4 5) (show True from trivial) (by decide)
    (show 2 ≤ ([0, 1, 4, 5] : List UInt32).length by decide)
  exact ⟨_, _, hrun, _, _, _, _, rfl, rfl, rfl, rfl, rfl, rfl, rfl⟩

end aflnet.mcts
