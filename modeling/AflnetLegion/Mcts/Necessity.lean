import AflnetLegion.Mcts.Progress

open Checked

namespace aflnet.mcts

theorem select_loop_add (oracles : Nat → Oracle) (m n : Nat) (s : Selecting) :
    select_loop oracles (m + n) s =
      select_loop oracles m s >>= fun s => select_loop (fun i => oracles (m + i)) n s := by
  induction m generalizing oracles s with
  | zero =>
    rw [Nat.zero_add, select_loop, pure_bind]
    simp only [Nat.zero_add]
  | succ m ih =>
    rw [Nat.succ_add, select_loop, select_loop, bind_assoc]
    congr 1
    funext s'
    rw [ih]
    simp only [Nat.add_right_comm]

/-- When selection is done, further steps change nothing. -/
theorem select_loop_done {s : Selecting} (h : s.pc = .done) (oracles : Nat → Oracle) (fuel : Nat) :
    select_loop oracles fuel s = pure s := by
  induction fuel generalizing oracles with
  | zero => rfl
  | succ fuel ih =>
    rw [select_loop, select_step, h]
    dsimp only
    rw [pure_bind, ih]

/-- If selection always gets to a seed, it cannot be led to a state where it stops. -/
theorem not_can_stop_of_found {t : MctsTree} {fuel : Nat} {s : Selecting}
    (h : ∀ oracles, Holds (fun _ => False) (select_loop oracles fuel (.start t)) Selecting.Found)
    (hleads : Leads false (.start t) s) : ¬ CanStop false s := by
  rintro ⟨o, hstops⟩
  obtain ⟨oracles, k, rfl, hrun⟩ := hleads.exists_run o
  have hlonger : Stops false (select_loop oracles (k + 1) (.start t)) := by
    rw [select_loop_add]
    refine Stops.bind hrun ?_
    rw [select_loop]
    exact hstops.bind_left _
  rcases Nat.le_total fuel (k + 1) with hle | hge
  · obtain ⟨m, hm⟩ := Nat.exists_eq_add_of_le hle
    rw [hm, select_loop_add] at hlonger
    obtain ⟨s', hreturn, hfound⟩ := (h oracles).returns_silently false []
    obtain ⟨stop, herror⟩ := hlonger []
    rw [run_bind, hreturn] at herror
    dsimp only at herror
    rw [select_loop_done hfound.1] at herror
    cases herror
  · obtain ⟨m, rfl⟩ := Nat.exists_eq_add_of_le hge
    have hholds := h oracles
    rw [select_loop_add] at hholds
    exact hholds.not_stops false (hlonger.bind_left _)

theorem Exhausted.mono {t u : MctsTree} {v : NodeId} (h : Exhausted t v) (hsame : MctsTree.SameBy GNode.links t u)
    (hkept : ∀ v, t.Dead v → u.Dead v) : Exhausted u v := by
  induction h with
  | dead h => exact .dead (hkept _ h)
  | black hv hblack hne _ ih =>
    obtain ⟨n', hv', hchildren, hcolour, _⟩ := hsame.exists_links hv
    exact .black hv' (hcolour.trans hblack) (by rw [hchildren]; exact hne) (by rw [hchildren]; exact ih)

/-- The parent of an exhausted node does not die with it. -/
theorem Exhausts.parent_live {t u : MctsTree} {v x : NodeId} {n : GNode} (h : Exhausts t x u) (ht : Linked t)
    (hv : t.nodes[v]? = some n) (hx : x ∈ n.children) (hlive : ¬ t.Dead v) : ¬ u.Dead v := by
  intro hdead
  have hlt := ht.parent_lt_child hv hx
  rcases h.frame v n hv hdead with hold | rfl | ⟨p, hp, hle⟩
  · exact hlive hold
  · exact Nat.lt_irrefl _ hlt
  · obtain ⟨_, _, hltq, _⟩ := ht.exists_parent hv hp
    exact Nat.lt_irrefl _ (Nat.lt_trans (Nat.lt_of_le_of_lt hle hltq) hlt)

/-- Below a White node with exhausted children only, selection exhausts one child
after the other; `rest` are those that are left. -/
theorem Linked.hindered_at_white {t : MctsTree} {v : NodeId} {n : GNode} {rest : List NodeId} (ht : Linked t)
    (hv : t.nodes[v]? = some n) (hwhite : n.data.colour = .White) (hlive : ¬ t.Dead v)
    (hall : ∀ c ∈ n.children, Exhausted t c) (hrest : ∀ c ∈ n.children, t.Dead c ∨ c ∈ rest) :
    ¬ Unhindered false ⟨.descend, v, t⟩ := by
  intro hgo
  have hresponse : n.data.colour ≠ .Golden := by rw [hwhite]; exact fun hfalse => by cases hfalse
  have hnot : n.data.colour ≠ .Black := by rw [hwhite]; exact fun hfalse => by cases hfalse
  induction rest generalizing t n with
  | nil =>
    have hdead : ∀ c ∈ n.children, t.Dead c := fun c hc => (hrest c hc).resolve_right List.not_mem_nil
    exact hgo.resolve_left Bool.false_ne_true _ .refl (ht.can_stop_descending hv hresponse (Or.inl hnot) hdead)
  | cons x rest ih =>
    by_cases hx : x ∈ n.children ∧ ¬ t.Dead x
    · obtain ⟨hx, hxlive⟩ := hx
      have hdown : Leads false ⟨.descend, v, t⟩ ⟨.descend, x, t.count x⟩ := ht.leads_down hv hresponse hx hxlive
      obtain ⟨u, hthrough, hexhausts⟩ := (hall x hx).leads ht hxlive (MctsTree.SameBy.count t x)
        (MctsTree.dead_count t x) (hgo.of_leads hdown)
      have hu := ht.of_links hexhausts.same.links
      obtain ⟨m, hm, hchildren, hcolour, _⟩ := hexhausts.same.links.exists_links hv
      obtain ⟨k, hk, hparent⟩ := hu.child hm (show x ∈ m.children by rw [hchildren]; exact hx)
      have hulive := hexhausts.parent_live ht hv hx hlive
      have hback : Leads false ⟨.backtrack, x, u⟩ ⟨.descend, v, u⟩ :=
        Linked.leads_back hk hexhausts.dead hparent hm hulive (by rw [hcolour]; exact hnot)
      refine ih hu hm (hcolour.trans hwhite) hulive ?_ ?_ (hgo.of_leads ((hdown.trans hthrough).trans hback))
        (by rw [hcolour]; exact hresponse) (by rw [hcolour]; exact hnot)
      · rw [hchildren]
        exact fun c hc => (hall c hc).mono hexhausts.same.links hexhausts.kept
      · rw [hchildren]
        intro c hc
        rcases hrest c hc with hold | hmem
        · exact Or.inl (hexhausts.kept c hold)
        · rcases List.mem_cons.mp hmem with rfl | hmem
          · exact Or.inl hexhausts.dead
          · exact Or.inr hmem
    · refine ih ht hv hwhite hlive hall (fun c hc => ?_) hgo hresponse hnot
      rcases hrest c hc with hold | hmem
      · exact Or.inl hold
      · rcases List.mem_cons.mp hmem with rfl | hmem
        · exact Or.inl (by_contra fun hclive => hx ⟨hc, hclive⟩)
        · exact Or.inr hmem

/-- Selection can be led to a Black node with several children that is about to be
tested, unless all of them are alive and none is exhausted. -/
theorem Linked.hindered_at_black {t u : MctsTree} {v : NodeId} {n : GNode} (ht : Linked t)
    (hsame : MctsTree.SameBy GNode.skeleton t u) (hdead : ∀ w, u.Dead w ↔ t.Dead w) (hv : t.nodes[v]? = some n)
    (hblack : n.data.colour = .Black) (hlive : ¬ t.Dead v) (hlength : n.children.length ≠ 1)
    (hbad : (∃ c ∈ n.children, ¬ t.Dead c) → ∃ c ∈ n.children, ¬ t.Dead c ∧ Exhausted t c) :
    ¬ Unhindered false ⟨.descend, v, u⟩ := by
  intro hgo
  have hnever := hgo.resolve_left Bool.false_ne_true
  have hu := ht.of_links hsame.links
  obtain ⟨n', hn', hchildren, hcolour, _⟩ := hsame.links.exists_links hv
  have hresponse : n'.data.colour ≠ .Golden := by rw [hcolour, hblack]; exact fun hfalse => by cases hfalse
  -- a dead child from which selection comes back, with the node itself still alive
  have hstop : ∀ c ∈ n.children, ∀ w, Leads false ⟨.descend, v, u⟩ ⟨.backtrack, c, w⟩ →
      MctsTree.SameBy GNode.skeleton t w → w.Dead c → ¬ w.Dead v → False := by
    intro c hc w hleads hsame_w hcdead hvlive
    have hw := ht.of_links hsame_w.links
    obtain ⟨m, hm, hchildren_w, hcolour_w, _⟩ := hsame_w.links.exists_links hv
    obtain ⟨k, hk, hparent⟩ := hw.child hm (show c ∈ m.children by rw [hchildren_w]; exact hc)
    exact hnever _ hleads (hw.can_stop_backtracking hk hcdead hparent hm (MctsTree.unflagged_of_live hm hvlive)
      (hcolour_w.trans hblack) (by rw [hchildren_w]; exact hlength))
  by_cases hsome : ∃ c ∈ n.children, ¬ t.Dead c
  · obtain ⟨c, hc, hclive, hexhausted⟩ := hbad hsome
    have hdown : Leads false ⟨.descend, v, u⟩ ⟨.descend, c, u.count c⟩ :=
      hu.leads_down hn' hresponse (by rw [hchildren]; exact hc) fun h => hclive ((hdead c).mp h)
    obtain ⟨w, hthrough, hexhausts⟩ := hexhausted.leads ht hclive (hsame.trans (MctsTree.SameBy.count u c))
      (fun y => (MctsTree.dead_count u c y).trans (hdead y)) (hgo.of_leads hdown)
    exact hstop c hc w (hdown.trans hthrough) hexhausts.same hexhausts.dead (hexhausts.parent_live ht hv hc hlive)
  · have hall : ∀ c ∈ n.children, t.Dead c := fun c hc => by_contra fun hclive => hsome ⟨c, hc, hclive⟩
    by_cases hnil : n.children = []
    · refine hnever _ .refl (hu.can_stop_descending hn' hresponse (Or.inr (hchildren.trans hnil)) fun c hc => ?_)
      rw [hchildren] at hc
      exact (hdead c).mpr (hall c hc)
    · obtain ⟨c, hc, hdown⟩ : ∃ c ∈ n'.children, CanStep false ⟨.descend, v, u⟩ ⟨.backtrack, c, u.count c⟩ :=
        hu.can_descend_black hn' (hcolour.trans hblack) (by rw [hchildren]; exact hnil)
      rw [hchildren] at hc
      have hdead_c := fun w => (MctsTree.dead_count u c w).trans (hdead w)
      exact hstop c hc (u.count c) (.single hdown) (hsame.trans (MctsTree.SameBy.count u c))
        ((hdead_c c).mpr (hall c hc)) fun h => hlive ((hdead_c v).mp h)

/-- If selection cannot be led to stop, the tree is selectable. -/
theorem Linked.selectable_of_unhindered {t : MctsTree} (ht : Linked t) (hgo : Unhindered false (.start t)) :
    Selectable t := by
  intro v n hreached hlive hv
  obtain ⟨u, hleads, hsame, hdead⟩ : ∃ u, Leads false (.start t) ⟨.descend, v, u⟩ ∧
    MctsTree.SameBy GNode.skeleton t u ∧ ∀ w, u.Dead w ↔ t.Dead w := hreached.leads ht hlive
  have hgo' := hgo.of_leads hleads
  constructor
  · intro hwhite
    by_contra hnone
    obtain ⟨n', hn', hchildren, hcolour, _⟩ := hsame.links.exists_links hv
    refine (ht.of_links hsame.links).hindered_at_white hn' (hcolour.trans hwhite) (fun h => hlive ((hdead v).mp h)) ?_
      (fun c hc => Or.inr hc) hgo'
    rw [hchildren]
    intro c hc
    have hexhausted : Exhausted t c := by_contra fun hfree => hnone ⟨c, hc, hfree⟩
    exact hexhausted.mono hsame.links fun w hw => (hdead w).mpr hw
  · intro hblack
    by_contra hnot
    rw [not_or] at hnot
    obtain ⟨hsingle, hbad⟩ := hnot
    refine ht.hindered_at_black hsame hdead hv hblack hlive ?_ (fun hsome => ?_) hgo'
    · exact fun hlength => hsingle (List.length_eq_one_iff.mp hlength)
    · by_contra hnone
      exact hbad ⟨hsome, fun c hc hclive hexhausted => hnone ⟨c, hc, hclive, hexhausted⟩⟩

/-- In every reachable tree: however ties are broken, `select_tree_node` returns a
SimNode that holds a seed and no assertion fails in it, if and only if the tree is
selectable. -/
theorem Run.selection_progresses_iff {calls : List Call} {t : MctsTree}
    (hrun : Run (fun _ _ codes => Plain codes) calls t) :
    (∃ fuel, ∀ oracles, Holds (fun _ => False) (select_tree_node oracles fuel t ROOT) fun s =>
      s.pc = .done ∧ ∃ n, s.tree.nodes[s.tree_node]? = some n ∧ n.data.colour = .Golden ∧ n.data.seeds ≠ []) ↔
    Selectable t := by
  have hshape : Shape t := (hrun.shape_rule id (J := fun _ _ => True) trivial (fun _ _ _ _ => trivial)
    (fun _ _ => trivial)).1
  constructor
  · rintro ⟨fuel, hfound⟩
    simp only [select_tree_node_eq hshape.toLinked] at hfound
    exact hshape.toLinked.selectable_of_unhindered (Or.inr fun _ hleads => not_can_stop_of_found hfound hleads)
  · intro hselectable
    refine ⟨(Selecting.start t).potential + 1, fun oracles => ?_⟩
    rw [select_tree_node_eq hshape.toLinked]
    exact (Explores.start hrun.root_live).loop hshape hrun.root_live hselectable (fun hfalse => by cases hfalse)
      (fun _ => Nat.lt_succ_self _) oracles

/-- After one response the root offers its SimNode, and nothing else can be reached. -/
theorem selectable_of_exact_entry : Selectable (MctsTree.initial.expand (exact_entry [0, 5]) [0, 5]).1 := by
  intro v n _ hlive hv
  match v with
  | 0 =>
    cases hv
    refine ⟨fun _ => ⟨1, by decide, ?_⟩, fun hblack => by cases hblack⟩
    intro hexhausted
    cases hexhausted with
    | dead hdead => cases hdead
    | black h1 hblack =>
      cases h1
      cases hblack
  | 1 =>
    cases hv
    exact ⟨fun hwhite => (by cases hwhite), fun hblack => (by cases hblack)⟩
  | 2 => exact absurd rfl hlive
  | 3 =>
    cases hv
    exact ⟨fun hwhite => (by cases hwhite), fun hblack => (by cases hblack)⟩
  | v + 4 => cases hv

/-- Enough steps lead to the SimNode of the root, for every choice among equal scores. -/
theorem selection_after_exact_entry : ∃ fuel, ∀ oracles, Holds (fun _ => False)
    (select_tree_node oracles fuel (MctsTree.initial.expand (exact_entry [0, 5]) [0, 5]).1 ROOT) fun s =>
      s.pc = .done ∧ ∃ n, s.tree.nodes[s.tree_node]? = some n ∧ n.data.colour = .Golden ∧ n.data.seeds ≠ [] := by
  have hrun := (Run.initial : Run (fun _ _ codes => Plain codes) [] .initial).expand (q := exact_entry [0, 5])
    plain_single (by decide) (by decide)
  exact (Run.selection_progresses_iff hrun).mpr selectable_of_exact_entry

/-- A response that later becomes a proper part of another one gets a SimNode
without seeds. Below it selection finds only nodes with the score `-INFINITY`. -/
theorem selection_below_seedless_sim_node : ∃ calls t, Run WellAnnotated calls t ∧
    select_tree_node (fun _ => oldest_first) 12 t ROOT false [] = .error (.abort .best_child_is_live) := by
  have hfirst : WellAnnotated .initial (exact_entry [0, 5]) [0, 5] := ⟨plain_single, by decide, rfl⟩
  have hsecond : WellAnnotated (MctsTree.initial.expand (exact_entry [0, 5]) [0, 5]).1 (exact_entry [0, 5, 6, 7])
      [0, 5, 6, 7] := ⟨⟨by decide, rfl, by decide⟩, by decide, rfl⟩
  have hrun := (Run.initial.expand hfirst (by decide) (by decide)).expand hsecond (by decide) (by decide)
  exact ⟨_, _, hrun, rfl⟩

end aflnet.mcts
