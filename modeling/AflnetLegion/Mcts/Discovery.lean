import AflnetLegion.Mcts.Counters
import AflnetLegion.Mcts.Pruning
import AflnetLegion.Mcts.Trie

open Checked

namespace aflnet.mcts

/-- How many calls reported a new path that has the prefix `x`. -/
def credits (calls : List Call) (x : List UInt32) : Nat :=
  calls.countP fun call => call.new_path && x.isPrefixOf call.response_codes

/-- One call more credits the prefixes of its response if it reported a new path. -/
theorem credits_append (calls : List Call) (call : Call) (x : List UInt32) :
    credits (calls ++ [call]) x =
      credits calls x + if call.new_path = true ∧ x <+: call.response_codes then 1 else 0 := by
  rw [credits, List.countP_append, List.countP_singleton, credits]
  simp only [Bool.and_eq_true, List.isPrefixOf_iff_prefix]

/-- The statistics `Expansion` and `Propagation` keep of a node, with what they are
about. -/
def GNode.credit (n : GNode) : Label × UInt32 := (n.label, n.data.discovered)

theorem GNode.label_of_credit {n m : GNode} (h : n.credit = m.credit) : n.label = m.label := congrArg Prod.fst h

theorem GNode.discovered_of_credit {n m : GNode} (h : n.credit = m.credit) : n.data.discovered = m.data.discovered :=
  congrArg Prod.snd h

/-- The upward walk credits a response node if its path is a prefix of the path the
walk starts from, and no other node. -/
theorem Shape.discovered_discover {t : MctsTree} (h : Shape t) (is_new : Bool) {fuel : Nat} {v : NodeId} {x : List UInt32}
    (hv : t.At v x) (hfuel : v < fuel) {u : NodeId} {n : GNode} (hu : t.nodes[u]? = some n) :
    ∃ n', (t.discover is_new fuel (some v)).nodes[u]? = some n' ∧
      n'.data.discovered = if n.data.colour ≠ .Golden ∧ n.data.path <+: x then n.data.discovered + is_new.toUInt32
        else n.data.discovered := by
  induction fuel generalizing t v x n with
  | zero => exact absurd hfuel (Nat.not_lt_zero v)
  | succ fuel ih =>
    obtain ⟨m, hm, hresponse, hpath⟩ := hv
    have hat : t.At v x := ⟨m, hm, hresponse, hpath⟩
    rw [MctsTree.discover, hm, Option.bind_some]
    have hcredited := MctsTree.getElem?_modify_self hm fun d => { d with discovered := d.discovered + is_new.toUInt32 }
    have hsame : MctsTree.SameBy GNode.label t
        (t.modify v fun d => { d with discovered := d.discovered + is_new.toUInt32 }) := MctsTree.SameBy.modify hm rfl
    by_cases hroot : v = ROOT
    · subst hroot
      obtain ⟨r, hr, hnone, _⟩ := h.root
      rw [hm] at hr
      cases hr
      rw [hnone, MctsTree.discover]
      by_cases huv : ROOT = u
      · subst huv
        rw [hm] at hu
        cases hu
        exact ⟨_, hcredited, by rw [if_pos ⟨hresponse, hpath ▸ List.prefix_rfl⟩]⟩
      · refine ⟨n, by rw [MctsTree.getElem?_modify_ne t huv, hu], ?_⟩
        rw [if_neg]
        rintro ⟨hn, hstarts⟩
        have hx : x = [0] := h.at_root_iff.mp hat
        have hne : n.data.path ≠ [] := h.ne_nil_of_at ⟨n, hu, hn, rfl⟩
        have hfull : n.data.path = x := by
          refine hstarts.eq_of_length_le ?_
          rw [hx]
          exact List.length_pos_iff.mpr hne
        exact huv (h.at_unique hat ⟨n, hu, hn, hfull⟩)
    · obtain ⟨p, m', y, hm', hparent, hp, hx, _⟩ := h.at_parent hat hroot
      rw [hm] at hm'
      cases hm'
      obtain ⟨_, _, hlt, _⟩ := h.exists_parent hm hparent
      rw [hparent]
      have hrest := @ih _ (h.of_label hsame) p y (hp.of_label hsame) (Nat.lt_of_lt_of_le hlt (Nat.le_of_lt_succ hfuel))
      by_cases huv : v = u
      · subst huv
        rw [hm] at hu
        cases hu
        obtain ⟨n', hn', hdiscovered⟩ := hrest hcredited
        refine ⟨n', hn', ?_⟩
        have hlong : ¬ n.data.path <+: y := by
          intro hstarts
          have hle := hstarts.length_le
          rw [hpath, hx, List.length_append, List.length_singleton] at hle
          exact Nat.not_succ_le_self _ hle
        rw [hdiscovered, if_neg fun hboth => hlong hboth.2, if_pos ⟨hresponse, hpath ▸ List.prefix_rfl⟩]
      · obtain ⟨n', hn', hdiscovered⟩ := hrest (by rw [MctsTree.getElem?_modify_ne t huv, hu])
        refine ⟨n', hn', ?_⟩
        rw [hdiscovered]
        refine if_congr (and_congr_right fun hn => ?_) rfl rfl
        rw [hx, List.prefix_concat_iff, ← hx]
        refine ⟨Or.inr, fun hcase => hcase.resolve_left fun hfull => ?_⟩
        exact huv (h.at_unique hat ⟨n, hu, hn, hfull⟩)

/-- `Expansion` credits the response nodes on the path of a new response. A node
appended starts without credit. -/
theorem Shape.discovered_expand {t : MctsTree} (h : Shape t) {q : queue_entry} (hregions : 0 < q.region_count)
    {response_codes : List UInt32} (hcodes : Plain response_codes) {u : NodeId} {n' : GNode}
    (hu : (t.expand q response_codes).1.nodes[u]? = some n') :
    ∃ before : UInt32, n'.data.discovered = (if n'.data.colour ≠ .Golden ∧ n'.data.path <+: response_codes then
        before + (t.missing ROOT response_codes.tail).toUInt32 else before) ∧
      ((∃ n, t.nodes[u]? = some n ∧ n.data.discovered = before ∧ n.data.path = n'.data.path ∧
          (n.data.colour = .Golden ↔ n'.data.colour = .Golden)) ∨
        (t.nodes.length ≤ u ∧ before = 0)) := by
  have hsound := h.walk_sound hregions hcodes
  have hwalk := MctsTree.Extends.walk t q response_codes
  obtain ⟨m, hm⟩ : ∃ m, (t.walk q response_codes).tree.nodes[u]? = some m := by
    obtain ⟨m, hm, _⟩ := (MctsTree.finish_same hsound.here.lt (t.missing ROOT response_codes.tail)).symm.exists_node hu
    exact ⟨m, hm⟩
  obtain ⟨k, hk, hlabel⟩ :=
    (MctsTree.finish_same hsound.here.lt (t.missing ROOT response_codes.tail)).label.exists_node hm
  have hn : k = n' := Option.some.inj (hk.symm.trans hu)
  subst hn
  have hpath : k.data.path = m.data.path := GNode.path_of_label hlabel
  have hcolour : k.data.colour = m.data.colour := GNode.colour_of_label hlabel
  have hhere := hsound.here
  rw [List.take_length] at hhere
  obtain ⟨w, hw⟩ := MctsTree.getElem?_of_lt hhere.lt
  have hmarked : MctsTree.SameBy GNode.credit (t.walk q response_codes).tree
      ((t.walk q response_codes).tree.modify (t.walk q response_codes).tree_node fun d =>
        { d with fully_explored := (t.walk q response_codes).tree.leaf (t.walk q response_codes).tree_node }) :=
    MctsTree.SameBy.modify hw rfl
  obtain ⟨m', hm', hcredit⟩ := hmarked.exists_node hm
  have hlabels := hmarked.map Prod.fst
  obtain ⟨k', hk', hdiscovered⟩ := (hsound.shape.of_label hlabels).discovered_discover (t.missing ROOT response_codes.tail)
    (hhere.of_label hlabels) (Nat.lt_succ_of_lt (hhere.of_label hlabels).lt) hm'
  have hfinal : k' = k := Option.some.inj (hk'.symm.trans hk)
  subst hfinal
  refine ⟨m.data.discovered, ?_, ?_⟩
  · have hsame := GNode.label_of_credit hcredit
    rw [hdiscovered, hpath, hcolour, GNode.path_of_label hsame, GNode.colour_of_label hsame,
      GNode.discovered_of_credit hcredit]
  · by_cases hlt : u < t.nodes.length
    · obtain ⟨n, hn⟩ := MctsTree.getElem?_of_lt hlt
      obtain ⟨n₁, _, hn₁, hcounts, _⟩ := hwalk.old hn
      rw [hm] at hn₁
      cases hn₁
      refine Or.inl ⟨n, hn, (TreeNodeData.discovered_of_counts hcounts).symm, ?_, ?_⟩
      · rw [hpath, TreeNodeData.path_of_counts hcounts]
      · rw [hcolour, TreeNodeData.golden_iff_of_counts hcounts]
    · exact Or.inr ⟨Nat.not_lt.mp hlt, (hwalk.new (Nat.not_lt.mp hlt) hm).2⟩

/-- A step of `select_tree_node` credits nobody. -/
theorem SelectStep.credit {ignore : Bool} {s s' : Selecting} (h : SelectStep ignore s s') :
    MctsTree.SameBy GNode.credit s.tree s'.tree := by
  have hmodify : ∀ (v : NodeId) (f : TreeNodeData → TreeNodeData),
      (∀ n : GNode, GNode.credit { n with data := f n.data } = n.credit) →
      MctsTree.SameBy GNode.credit s.tree (s.tree.modify v f) := by
    intro v f hf u
    rw [MctsTree.getElem?_modify]
    cases s.tree.nodes[u]? with
    | none => rfl
    | some n => by_cases hvu : v = u <;> simp [hvu, hf]
  cases h with
  | down => exact hmodify _ _ fun _ => rfl
  | mark => exact hmodify _ _ fun _ => rfl
  | _ => exact MctsTree.SameBy.refl _

theorem SelectSteps.credit {ignore : Bool} {s s' : Selecting} (h : SelectSteps ignore s s') :
    MctsTree.SameBy GNode.credit s.tree s'.tree := by
  induction h with
  | refl => exact MctsTree.SameBy.refl _
  | tail _ hstep ih => exact ih.trans hstep.credit

/-- `select_tree_node` credits nobody, with any oracles and any fuel. -/
theorem Linked.selection_credit {t : MctsTree} (h : Linked t) {oracles : Nat → Oracle} {fuel : Nat} {s : Selecting}
    (hselect : Returns (select_tree_node oracles fuel t ROOT) s) : MctsTree.SameBy GNode.credit t s.tree := by
  obtain ⟨ignore, log, final, hrun⟩ := hselect
  obtain ⟨r, hr, _⟩ := h.root
  have hstart : MctsTree.SameBy GNode.credit t (Selecting.start t).tree := MctsTree.SameBy.modify hr rfl
  exact hstart.trans (select_tree_node_steps h hrun).credit

/-- `Propagation` credits the node it is called for. -/
theorem discovered_propagation {t t' : MctsTree} {v : NodeId} {seed_selected : Option Nat} {is_new : Bool}
    (h : Returns (Propagation t v seed_selected is_new) t') {u : NodeId} {n' : GNode} (hu : t'.nodes[u]? = some n') :
    ∃ n, t.nodes[u]? = some n ∧ n'.label = n.label ∧
      n'.data.discovered = if u = v then n.data.discovered + is_new.toUInt32 else n.data.discovered := by
  rw [Propagation, set_tree_node_data] at h
  obtain ⟨_, _, h⟩ := returns_bind h
  rw [returns_pure h, MctsTree.getElem?_modify] at hu
  obtain ⟨n, hn, rfl⟩ := Option.map_eq_some_iff.mp hu
  refine ⟨n, hn, ?_⟩
  by_cases hvu : v = u
  · subst hvu
    rw [if_pos rfl, if_pos rfl]
    exact ⟨rfl, rfl⟩
  · rw [if_neg hvu, if_neg (Ne.symm hvu)]
    exact ⟨rfl, rfl⟩

/-- Every response node has been credited once for each call that reported a new path
through it. -/
def Credited (calls : List Call) (t : MctsTree) : Prop :=
  ∀ {v : NodeId} {n : GNode}, t.nodes[v]? = some n → n.data.colour ≠ .Golden →
    n.data.discovered = UInt32.ofNat (credits calls n.data.path)

/-- Whether all nodes have been credited can be told from their credits. -/
theorem Credited.of_credit {calls : List Call} {t t' : MctsTree} (h : Credited calls t)
    (hsame : MctsTree.SameBy GNode.credit t t') : Credited calls t' := by
  intro v n' hv hresponse
  obtain ⟨n, hn, hcredit⟩ := hsame.symm.exists_node hv
  have hlabel := GNode.label_of_credit hcredit
  rw [← GNode.discovered_of_credit hcredit, ← GNode.path_of_label hlabel]
  apply h hn
  rw [GNode.colour_of_label hlabel]
  exact hresponse

theorem toUInt32_eq_ofNat (b : Bool) : b.toUInt32 = UInt32.ofNat (if b = true then 1 else 0) := by
  cases b <;> rfl

/-- An expansion credits the nodes of its response if it is new. A node that it appends belongs
to no earlier response, so its counter starts right. -/
theorem Credited.expand {calls : List Call} {t : MctsTree} (h : Credited calls t) (hshape : Shape t)
    (hrecords : Records calls t) {q : queue_entry} (hregions : 0 < q.region_count) {response_codes : List UInt32}
    (hcodes : Plain response_codes) :
    Credited (calls ++ [⟨q, response_codes, t.missing ROOT response_codes.tail⟩]) (t.expand q response_codes).1 := by
  intro u n' hu hresponse
  obtain ⟨before, hdiscovered, hcase⟩ := hshape.discovered_expand hregions hcodes hu
  have hbefore : before = UInt32.ofNat (credits calls n'.data.path) := by
    rcases hcase with ⟨n, hn, hold, hpath, hgolden⟩ | ⟨hge, rfl⟩
    · rw [← hold, ← hpath]
      exact h hn fun hfalse => hresponse (hgolden.mp hfalse)
    · -- an earlier call with this prefix would have left its node in the tree
      have hnone : credits calls n'.data.path = 0 := by
        rw [credits, List.countP_eq_zero]
        intro call hcall hcredit
        rw [Bool.and_eq_true, List.isPrefixOf_iff_prefix] at hcredit
        have hshape' := hshape.expand hregions hcodes
        have hat' : (t.expand q response_codes).1.At u n'.data.path := ⟨n', hu, hresponse, rfl⟩
        obtain ⟨w, hw⟩ := (hrecords.has_iff n'.data.path).mpr
          (Or.inr ⟨hshape'.ne_nil_of_at hat', call, hcall, hcredit.2⟩)
        obtain ⟨m, hm, hmresponse, hmpath⟩ := hw
        obtain ⟨k, _, hk, hcounts, _⟩ := (MctsTree.Extends.walk t q response_codes).old hm
        obtain ⟨k', hk', hlabel⟩ := (MctsTree.finish_same (hshape.walk_sound hregions hcodes).here.lt
          (t.missing ROOT response_codes.tail)).label.exists_node hk
        have hat : (t.expand q response_codes).1.At w n'.data.path := by
          refine ⟨k', hk', ?_, ?_⟩
          · rw [GNode.colour_of_label hlabel]
            exact fun hgolden => hmresponse ((TreeNodeData.golden_iff_of_counts hcounts).mp hgolden)
          · rw [GNode.path_of_label hlabel, TreeNodeData.path_of_counts hcounts, hmpath]
        have heq := hshape'.at_unique hat' hat
        rw [heq] at hge
        exact Nat.not_lt.mpr hge (MctsTree.lt_of_getElem? hm)
      rw [hnone]
      rfl
  rw [hdiscovered, hbefore, credits_append, UInt32.ofNat_add, toUInt32_eq_ofNat]
  by_cases hstarts : n'.data.path <+: response_codes
  · simp only [hresponse, hstarts, ne_eq, not_false_eq_true, and_self, if_true, and_true]
  · simp only [hstarts, and_false, if_false]
    exact (UInt32.add_zero _).symm

theorem credited_initial : Credited [] .initial := by
  intro v n hv _
  match v with
  | 0 =>
    cases hv
    rfl
  | 1 =>
    cases hv
    rfl
  | v + 2 => cases hv

/-- The counters are right after any run of plain responses, by the step above. -/
theorem Run.credited {calls : List Call} {t : MctsTree} (hrun : Run (fun _ _ codes => Plain codes) calls t) :
    Credited calls t := by
  induction hrun with
  | init h =>
    rw [Initialisation_eq] at h
    rw [returns_pure h]
    exact credited_initial
  | expansion run hcodes h ih =>
    obtain ⟨hregions, _, heq⟩ := run.linked.returns_expansion h
    cases heq
    exact ih.expand run.records.1 run.records.2 hregions hcodes
  | selection run h _ ih => exact ih.of_credit (run.linked.selection_credit h)
  | @propagation calls t t' v seed_selected is_new run hgolden h ih =>
    intro u n' hu hresponse
    obtain ⟨n, hn, hlabel, hdiscovered⟩ := discovered_propagation h hu
    have hcolour : n.data.colour = n'.data.colour := GNode.colour_of_label hlabel.symm
    have hne : u ≠ v := by
      rintro rfl
      rw [MctsTree.colour?_eq hn, hcolour] at hgolden
      exact hresponse (Option.some.inj hgolden)
    rw [hdiscovered, if_neg hne, GNode.path_of_label hlabel]
    exact ih hn (by rw [hcolour]; exact hresponse)

/-- The `discovered` field of a node; a node that is not there yet will start at 0. -/
def MctsTree.discovered (t : MctsTree) (v : NodeId) : UInt32 := (t.nodes[v]?.map fun n => n.data.discovered).getD 0

theorem MctsTree.discovered_eq {t : MctsTree} {v : NodeId} {n : GNode} (hv : t.nodes[v]? = some n) :
    t.discovered v = n.data.discovered := by
  rw [discovered, hv, Option.map_some, Option.getD_some]

theorem MctsTree.discovered_of_credit {t t' : MctsTree} (h : SameBy GNode.credit t t') (v : NodeId) :
    t'.discovered v = t.discovered v := by
  have hsame : SameBy (fun n : GNode => n.data.discovered) t t' := h.map Prod.snd
  rw [discovered, discovered, hsame v]

/-- `Expansion` leaves the counters of the SimNodes alone; a new one starts at 0. -/
theorem Shape.sim_node_expand {t : MctsTree} (h : Shape t) {q : queue_entry} (hregions : 0 < q.region_count)
    {response_codes : List UInt32} (hcodes : Plain response_codes) {s : NodeId} {n' : GNode}
    (hs : (t.expand q response_codes).1.nodes[s]? = some n') (hgolden : n'.data.colour = .Golden) :
    n'.data.discovered = t.discovered s := by
  obtain ⟨before, hdiscovered, hcase⟩ := h.discovered_expand hregions hcodes hs
  rw [hdiscovered, if_neg fun hboth => hboth.1 hgolden]
  rcases hcase with ⟨n, hn, hold, _⟩ | ⟨hge, hzero⟩
  · rw [MctsTree.discovered_eq hn, hold]
  · rw [MctsTree.discovered, List.getElem?_eq_none hge, hzero]
    rfl

/-- After any run the counter of a response node is the number of calls that reported
a new path through it, and from there on only `Propagation` changes the counter of a
SimNode, that of the node it is called for. -/
theorem Run.discovery_counts {calls : List Call} {t : MctsTree} (hrun : Run (fun _ _ codes => Plain codes) calls t) :
    (∀ (v : NodeId) (n : GNode), t.nodes[v]? = some n → n.data.colour ≠ .Golden →
      n.data.discovered = UInt32.ofNat
        (calls.countP fun call => call.new_path && n.data.path.isPrefixOf call.response_codes)) ∧
    (∀ (q : queue_entry) (response_codes : List UInt32) (t' : MctsTree) (v : NodeId) (new_path : Bool),
      Plain response_codes → Returns (Expansion t ROOT q response_codes) (t', v, new_path) →
      ∀ (s : NodeId) (n' : GNode), t'.nodes[s]? = some n' → n'.data.colour = .Golden →
        n'.data.discovered = t.discovered s) ∧
    (∀ (oracles : Nat → Oracle) (fuel : Nat) (selecting : Selecting),
      Returns (select_tree_node oracles fuel t ROOT) selecting → ∀ s, selecting.tree.discovered s = t.discovered s) ∧
    (∀ (v : NodeId) (seed_selected : Option Nat) (is_new : Bool) (t' : MctsTree),
      Returns (Propagation t v seed_selected is_new) t' → ∀ s,
        t'.discovered s = if s = v then t.discovered s + is_new.toUInt32 else t.discovered s) := by
  have hshape := hrun.records.1
  refine ⟨fun v n hv hresponse => hrun.credited hv hresponse, ?_, ?_, ?_⟩
  · intro q response_codes t' v new_path hcodes h s n' hs hgolden
    obtain ⟨hregions, _, heq⟩ := hshape.returns_expansion h
    cases heq
    exact hshape.sim_node_expand hregions hcodes hs hgolden
  · intro oracles fuel selecting h s
    exact MctsTree.discovered_of_credit (hshape.selection_credit h) s
  · intro v seed_selected is_new t' h s
    rw [Propagation, set_tree_node_data] at h
    obtain ⟨n, hderef, h⟩ := returns_bind h
    obtain ⟨_, _, _, hok⟩ := hderef
    have hv := deref_ok hok
    rw [returns_pure h]
    by_cases hsv : s = v
    · subst hsv
      rw [if_pos rfl, MctsTree.discovered_eq hv, MctsTree.discovered_eq (MctsTree.getElem?_modify_self hv _)]
    · rw [if_neg hsv, MctsTree.discovered, MctsTree.getElem?_modify_ne t (Ne.symm hsv), MctsTree.discovered]

theorem discovery_of_single_entry : (MctsTree.initial.expand single_entry [0, 5]).1.discovered ROOT = 1 := by
  have hrun := (Run.initial : Run (fun _ _ codes => Plain codes) [] .initial).expand (q := single_entry)
    plain_single (by decide) (by decide)
  have hroot : ∃ n, (MctsTree.initial.expand single_entry [0, 5]).1.nodes[ROOT]? = some n ∧
      n.data.colour ≠ .Golden := ⟨_, rfl, by decide⟩
  obtain ⟨n, hn, hresponse⟩ := hroot
  have hcount := (Run.discovery_counts hrun).1 ROOT n hn hresponse
  rw [MctsTree.discovered_eq hn, hcount]
  cases hn
  rfl

end aflnet.mcts
