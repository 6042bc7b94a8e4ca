import AflnetLegion.Mcts.Grow

open Checked

namespace aflnet.mcts

/-- A response of at least one code after the initial state, without the id that
marks SimNodes. -/
structure Plain (response_codes : List UInt32) : Prop where
  long : 2 ≤ response_codes.length
  starts : response_codes.head? = some 0
  unmarked : 999 ∉ response_codes

theorem Plain.take_one {response_codes : List UInt32} (h : Plain response_codes) : response_codes.take 1 = [0] := by
  have hstarts := h.starts
  cases response_codes with
  | nil => cases hstarts
  | cons code codes =>
    rw [List.head?_cons] at hstarts
    rw [Option.some.inj hstarts]
    rfl

/-- The loop rule of the second round. -/
theorem Walk.Sound.visit_all_rule {q : queue_entry} {response_codes : List UInt32} {J : Nat → Walk → Prop}
    (hstep : ∀ {path_index : Nat} {code : UInt32} {s : Walk}, s.Sound q response_codes path_index →
      response_codes[path_index]? = some code → code ≠ 999 → J path_index s →
      J (path_index + 1) (visit q response_codes path_index code s))
    {path_index : Nat} {codes : List UInt32} (hcodes : codes <+: response_codes.drop path_index)
    (h999 : 999 ∉ codes) {s : Walk} (h : s.Sound q response_codes path_index) (hJ : J path_index s) :
    (visit_all q response_codes path_index codes s).Sound q response_codes (path_index + codes.length) ∧
      J (path_index + codes.length) (visit_all q response_codes path_index codes s) := by
  induction codes generalizing path_index s with
  | nil => exact ⟨h, hJ⟩
  | cons code codes ih =>
    obtain ⟨rest, hrest⟩ := hcodes
    have hcode : response_codes[path_index]? = some code := by
      rw [← List.head?_drop, ← hrest]
      rfl
    have hcodes' : codes <+: response_codes.drop (path_index + 1) := by
      rw [← List.tail_drop, ← hrest]
      exact ⟨rest, rfl⟩
    rw [List.mem_cons, not_or] at h999
    have hne : code ≠ 999 := fun heq => h999.1 heq.symm
    have hrec := ih hcodes' h999.2 (h.visit hcode hne) (hstep h hcode hne hJ)
    rw [visit_all, List.length_cons, Nat.add_comm codes.length 1, ← Nat.add_assoc]
    exact hrec

/-- The tree has a node for the response prefix `x`. -/
def MctsTree.Has (t : MctsTree) (x : List UInt32) : Prop := ∃ v, t.At v x

/-- The ids from the root down to a node, as the parent pointers have them. It is stated without
the stored path, which is to be compared with it. -/
inductive IdsFromRoot (t : MctsTree) : NodeId → List UInt32 → Prop where
  | root {r : GNode} (hr : t.nodes[ROOT]? = some r) : IdsFromRoot t ROOT [r.data.id]
  | child {u v : NodeId} {n : GNode} {ids : List UInt32} (hu : IdsFromRoot t u ids) (hv : t.nodes[v]? = some n)
      (hparent : n.parent = some u) : IdsFromRoot t v (ids ++ [n.data.id])

namespace Shape

variable {t : MctsTree} {q : queue_entry} {response_codes : List UInt32}

/-- Before the second round the walk is at the root, whose path is the first code. -/
theorem start_sound (h : Shape t) (hregions : 0 < q.region_count) (hcodes : response_codes.take 1 = [0]) :
    (Walk.start (t.seed ROOT q 0) ROOT).Sound q response_codes 1 where
  ready := h.toLinked.start_ready hregions
  shape := h.of_label (t.seed_label ROOT q 0)
  here := by
    rw [hcodes]
    exact h.at_root.of_label (t.seed_label ROOT q 0)
  fresh := fun hfalse => by cases hfalse

/-- The walk of a plain response ends at the node of the response. -/
theorem walk_rule (h : Shape t) (hregions : 0 < q.region_count) (hcodes : Plain response_codes)
    {J : Nat → Walk → Prop}
    (hstep : ∀ {path_index : Nat} {code : UInt32} {s : Walk}, s.Sound q response_codes path_index →
      response_codes[path_index]? = some code → code ≠ 999 → J path_index s →
      J (path_index + 1) (visit q response_codes path_index code s))
    (hJ : J 1 (Walk.start (t.seed ROOT q 0) ROOT)) :
    (t.walk q response_codes).Sound q response_codes response_codes.length ∧
      J response_codes.length (t.walk q response_codes) := by
  have hlen : 1 + response_codes.tail.length = response_codes.length := by
    have hlong := hcodes.long
    rw [List.length_tail]
    omega
  have hrule := (h.start_sound hregions hcodes.take_one).visit_all_rule hstep
    (show response_codes.tail <+: response_codes.drop 1 by simp)
    (fun hmem => hcodes.unmarked (List.mem_of_mem_tail hmem)) hJ
  rw [hlen] at hrule
  exact hrule

/-- After both rounds it is at the node of the whole response. -/
theorem walk_sound (h : Shape t) (hregions : 0 < q.region_count) (hcodes : Plain response_codes) :
    (t.walk q response_codes).Sound q response_codes response_codes.length :=
  (h.walk_rule hregions hcodes (J := fun _ _ => True) (fun _ _ _ _ => trivial) trivial).1

protected theorem expand (h : Shape t) (hregions : 0 < q.region_count) (hcodes : Plain response_codes) :
    Shape (t.expand q response_codes).1 := by
  have hsound := h.walk_sound hregions hcodes
  exact hsound.shape.of_label (MctsTree.finish_same hsound.here.lt _).label

/-- `Expansion` adds the nodes of the prefixes of the response. -/
theorem has_expand (h : Shape t) (hregions : 0 < q.region_count) (hcodes : Plain response_codes) (x : List UInt32) :
    (t.expand q response_codes).1.Has x ↔ t.Has x ∨ (x ≠ [] ∧ x <+: response_codes) := by
  obtain ⟨hsound, hwalk⟩ := h.walk_rule hregions hcodes
    (J := fun path_index s => 1 ≤ path_index ∧ ∀ x, s.tree.Has x ↔ t.Has x ∨ ∃ k, k ≠ 0 ∧ k ≤ path_index ∧
      x = response_codes.take k)
    (by
      rintro path_index code s hs hcode h999 ⟨hpos, ih⟩
      refine ⟨Nat.le_succ_of_le hpos, fun x => ⟨?_, ?_⟩⟩
      · rintro ⟨v, hv⟩
        rcases hs.of_at_visit hcode h999 hv with hold | rfl
        · rcases (ih x).mp ⟨v, hold⟩ with hhas | ⟨k, hk, hle, rfl⟩
          · exact Or.inl hhas
          · exact Or.inr ⟨k, hk, Nat.le_succ_of_le hle, rfl⟩
        · exact Or.inr ⟨path_index + 1, Nat.succ_ne_zero _, Nat.le_refl _, rfl⟩
      · intro hx
        have hold : s.tree.Has x → (visit q response_codes path_index code s).tree.Has x := by
          rintro ⟨v, hv⟩
          exact ⟨v, hs.at_visit hcode h999 hv⟩
        rcases hx with hhas | ⟨k, hk, hle, rfl⟩
        · exact hold ((ih x).mpr (Or.inl hhas))
        · rcases Nat.le_succ_iff.mp hle with hlt | rfl
          · exact hold ((ih _).mpr (Or.inr ⟨k, hk, hlt, rfl⟩))
          · exact ⟨_, (hs.visit hcode h999).here⟩)
    (by
      refine ⟨Nat.le_refl 1, fun x => ⟨?_, ?_⟩⟩
      · rintro ⟨v, hv⟩
        exact Or.inl ⟨v, hv.of_label (t.seed_label ROOT q 0).symm⟩
      · rintro (⟨v, hv⟩ | ⟨k, hk, hle, rfl⟩)
        · exact ⟨v, hv.of_label (t.seed_label ROOT q 0)⟩
        · have hone : k = 1 := by omega
          rw [hone, hcodes.take_one]
          exact ⟨ROOT, h.at_root.of_label (t.seed_label ROOT q 0)⟩)
  have hfinish := (MctsTree.finish_same hsound.here.lt (t.missing ROOT response_codes.tail)).label
  have hsame : (t.expand q response_codes).1.Has x ↔ (t.walk q response_codes).tree.Has x :=
    ⟨fun ⟨v, hv⟩ => ⟨v, hv.of_label hfinish.symm⟩, fun ⟨v, hv⟩ => ⟨v, hv.of_label hfinish⟩⟩
  rw [hsame, hwalk.2 x]
  apply or_congr_right
  constructor
  · rintro ⟨k, hk, _, rfl⟩
    refine ⟨?_, List.take_prefix _ _⟩
    have hlong := hcodes.long
    intro hnil
    have hlen := congrArg List.length hnil
    rw [List.length_take, List.length_nil] at hlen
    omega
  · rintro ⟨hne, hpre⟩
    exact ⟨x.length, by simpa using hne, hpre.length_le, List.prefix_iff_eq_take.mp hpre⟩

/-- The paths of the tree are closed under non-empty prefixes. -/
theorem has_of_prefix (h : Shape t) {x y : List UInt32} (hx : t.Has x) (hy : y ≠ []) (hpre : y <+: x) :
    t.Has y := by
  induction x using List.reverseRecOn with
  | nil => exact absurd (List.prefix_nil.mp hpre) hy
  | append_singleton x code ih =>
    rcases List.prefix_concat_iff.mp hpre with rfl | hshort
    · exact hx
    · obtain ⟨v, hv⟩ := hx
      by_cases hroot : v = ROOT
      · subst hroot
        have heq : x ++ [code] = [] ++ [0] := h.at_root_iff.mp hv
        rw [(List.append_singleton_inj.mp heq).1] at hshort
        exact absurd (List.prefix_nil.mp hshort) hy
      · obtain ⟨u, _, _, _, _, hat, heq, _⟩ := h.at_parent hv hroot
        obtain ⟨rfl, _⟩ := List.append_singleton_inj.mp heq
        exact ih ⟨u, hat⟩ hshort

/-- The first round finds exactly the responses that have no node yet. -/
theorem missing_iff (h : Shape t) {v : NodeId} {x codes : List UInt32} (hv : t.At v x) (h999 : 999 ∉ codes) :
    t.missing v codes = true ↔ ¬ t.Has (x ++ codes) := by
  induction codes generalizing v x with
  | nil =>
    rw [MctsTree.missing, List.append_nil]
    exact ⟨fun hfalse => absurd hfalse Bool.false_ne_true, fun hnot => absurd ⟨v, hv⟩ hnot⟩
  | cons code codes ih =>
    rw [List.mem_cons, not_or] at h999
    have hne : code ≠ 999 := fun heq => h999.1 heq.symm
    have hsplit : x ++ code :: codes = x ++ [code] ++ codes := by simp
    rw [MctsTree.missing, hsplit]
    cases hc : t.child_with_id v code with
    | none =>
      have hnone := (h.child_with_id_eq_none_iff hv hne).mp hc
      refine ⟨fun _ hhas => ?_, fun _ => rfl⟩
      obtain ⟨c, hc⟩ := h.has_of_prefix hhas (by simp) (List.prefix_append _ _)
      exact hnone c hc
    | some c => exact ih ((h.child_with_id_iff hv hne).mp hc) h999.2

/-- The stored path of a response node spells the ids from the root down to it. -/
theorem ids_from_root (h : Shape t) {v : NodeId} {x : List UInt32} (hv : t.At v x) : IdsFromRoot t v x := by
  induction x using List.reverseRecOn generalizing v with
  | nil => exact absurd rfl (h.ne_nil_of_at hv)
  | append_singleton x code ih =>
    by_cases hroot : v = ROOT
    · subst hroot
      obtain ⟨r, hr, hid⟩ := Option.map_eq_some_iff.mp h.root_id
      rw [h.at_root_iff.mp hv, ← hid]
      exact .root hr
    · obtain ⟨u, n, _, hn, hparent, hat, heq, _⟩ := h.at_parent hv hroot
      obtain ⟨rfl, rfl⟩ := List.append_singleton_inj.mp heq
      exact .child (ih hat) hn hparent

end Shape

theorem shape_initial : Shape .initial := by
  have hnode : ∀ {v : NodeId} {n : GNode}, MctsTree.initial.nodes[v]? = some n →
      (v = 0 ∧ n = { data := { TreeNodeData.fresh 0 .White [0] with simulation_child := some 1 }
                     parent := none, children := [1] }) ∨
        (v = 1 ∧ n = { data := .fresh 999 .Golden [0], parent := some ROOT, children := [] }) := by
    intro v n hv
    match v with
    | 0 => exact Or.inl ⟨rfl, (Option.some.inj hv).symm⟩
    | 1 => exact Or.inr ⟨rfl, (Option.some.inj hv).symm⟩
    | v + 2 => cases hv
  refine ⟨linked_initial, ⟨_, rfl, by decide, rfl⟩, rfl, ?_, ?_, ?_, ?_, ?_⟩
  · intro v n hv
    rcases hnode hv with ⟨rfl, rfl⟩ | ⟨rfl, rfl⟩ <;> simp [TreeNodeData.fresh]
  · intro v n hv hgolden
    rcases hnode hv with ⟨rfl, rfl⟩ | ⟨rfl, rfl⟩
    · cases hgolden
    · exact ⟨rfl, rfl, ROOT, _, rfl, rfl, rfl, rfl, rfl⟩
  · intro v n hv hwhite
    rcases hnode hv with ⟨rfl, rfl⟩ | ⟨rfl, rfl⟩
    · exact ⟨1, _, rfl, rfl, rfl, rfl⟩
    · cases hwhite
  · intro v n hv hresponse hne
    rcases hnode hv with ⟨rfl, rfl⟩ | ⟨rfl, rfl⟩
    · exact absurd rfl hne
    · exact absurd rfl hresponse
  · intro v u n m hv hu hparent _
    rcases hnode hv with ⟨rfl, rfl⟩ | ⟨rfl, rfl⟩ <;> rcases hnode hu with ⟨rfl, rfl⟩ | ⟨rfl, rfl⟩
    · rfl
    · cases hparent
    · cases hparent
    · rfl

/-- The rule for runs whose responses are plain: a property of the skeleton holds
after every run if it holds initially and `expand` keeps it. -/
theorem Run.shape_rule {Ok : MctsTree → queue_entry → List UInt32 → Prop}
    (hplain : ∀ {t q response_codes}, Ok t q response_codes → Plain response_codes)
    {J : List Call → MctsTree → Prop} (hinit : J [] .initial)
    (hexpand : ∀ {calls t q response_codes}, Shape t → J calls t → Ok t q response_codes → 0 < q.region_count →
      J (calls ++ [⟨q, response_codes, t.missing ROOT response_codes.tail⟩]) (t.expand q response_codes).1)
    (hsame : ∀ {calls t t'}, J calls t → MctsTree.SameBy GNode.skeleton t t' → J calls t')
    {calls : List Call} {t : MctsTree} (hrun : Run Ok calls t) : Shape t ∧ J calls t :=
  (hrun.skeleton_invariant (I := fun calls t => Shape t ∧ J calls t) ⟨shape_initial, hinit⟩
    (fun _ _ _ _ _ ih ok hregions _ => ⟨ih.1.expand hregions (hplain ok), hexpand ih.1 ih.2 ok hregions⟩)
    (fun _ _ _ ih hskeleton => ⟨ih.1.of_label hskeleton.label, hsame ih.2 hskeleton⟩)).2

/-- What the calls of a run say about its tree: the paths are `[0]` and the
prefixes of the responses, and each call reported a new path if no response before
extended its own. -/
structure Records (calls : List Call) (t : MctsTree) : Prop where
  has_iff : ∀ x, t.Has x ↔ x = [0] ∨ (x ≠ [] ∧ ∃ call ∈ calls, x <+: call.response_codes)
  starts : ∀ call ∈ calls, [0] <+: call.response_codes
  reported : ∀ earlier call later, calls = earlier ++ call :: later →
    (call.new_path = true ↔ ∀ old ∈ earlier, ¬ call.response_codes <+: old.response_codes)

theorem records_initial : Records [] .initial where
  has_iff := by
    intro x
    constructor
    · rintro ⟨v, n, hn, hcolour, rfl⟩
      match v with
      | 0 =>
        cases hn
        exact Or.inl rfl
      | 1 =>
        cases hn
        exact absurd rfl hcolour
      | v + 2 => cases hn
    · rintro (rfl | ⟨_, _, hmem, _⟩)
      · exact ⟨ROOT, shape_initial.at_root⟩
      · cases hmem
  starts := fun _ hmem => by cases hmem
  reported := fun earlier _ _ heq => by cases earlier <;> cases heq

/-- What a tree records depends on links, ids, colours and paths only. -/
theorem Records.of_label {calls : List Call} {t t' : MctsTree} (h : Records calls t)
    (hsame : MctsTree.SameBy GNode.label t t') : Records calls t' where
  has_iff := by
    intro x
    rw [← h.has_iff x]
    exact ⟨fun ⟨v, hv⟩ => ⟨v, hv.of_label hsame.symm⟩, fun ⟨v, hv⟩ => ⟨v, hv.of_label hsame⟩⟩
  starts := h.starts
  reported := h.reported

/-- One more expansion. -/
theorem Records.expand {calls : List Call} {t : MctsTree} (h : Records calls t) (hshape : Shape t)
    {q : queue_entry} (hregions : 0 < q.region_count) {response_codes : List UInt32} (hcodes : Plain response_codes) :
    Records (calls ++ [⟨q, response_codes, t.missing ROOT response_codes.tail⟩]) (t.expand q response_codes).1 := by
  have hroot : [0] ++ response_codes.tail = response_codes := by
    rw [← hcodes.take_one, ← List.drop_one, List.take_append_drop]
  have hlong := hcodes.long
  refine ⟨?_, ?_, ?_⟩
  · intro x
    rw [hshape.has_expand hregions hcodes, h.has_iff]
    constructor
    · rintro ((rfl | ⟨hne, call, hcall, hpre⟩) | ⟨hne, hpre⟩)
      · exact Or.inl rfl
      · exact Or.inr ⟨hne, call, List.mem_append_left _ hcall, hpre⟩
      · exact Or.inr ⟨hne, _, List.mem_append_right _ (List.mem_singleton.mpr rfl), hpre⟩
    · rintro (rfl | ⟨hne, call, hcall, hpre⟩)
      · exact Or.inl (Or.inl rfl)
      · rcases List.mem_append.mp hcall with hold | hnew
        · exact Or.inl (Or.inr ⟨hne, call, hold, hpre⟩)
        · rw [List.mem_singleton.mp hnew] at hpre
          exact Or.inr ⟨hne, hpre⟩
  · intro call hcall
    rcases List.mem_append.mp hcall with hold | hnew
    · exact h.starts call hold
    · rw [List.mem_singleton.mp hnew]
      exact ⟨response_codes.tail, hroot⟩
  · intro earlier call later heq
    rcases List.eq_nil_or_concat later with rfl | ⟨rest, last, rfl⟩
    · obtain ⟨rfl, hlast⟩ := List.append_inj' heq rfl
      obtain rfl := (List.cons.inj hlast).1
      have hmissing := hshape.missing_iff hshape.at_root
        (fun hmem : 999 ∈ response_codes.tail => hcodes.unmarked (List.mem_of_mem_tail hmem))
      dsimp only
      rw [hmissing, hroot, h.has_iff]
      constructor
      · intro hnot old hold hpre
        refine hnot (Or.inr ⟨?_, old, hold, hpre⟩)
        rintro rfl
        simp at hlong
      · rintro hnot (rfl | ⟨_, old, hold, hpre⟩)
        · simp at hlong
        · exact hnot old hold hpre
    · rw [List.concat_eq_append, ← List.cons_append, ← List.append_assoc] at heq
      obtain ⟨heq, _⟩ := List.append_inj' heq rfl
      exact h.reported earlier call rest heq

/-- After any run of plain responses the tree has the shape of a trie and records the calls. -/
theorem Run.records {calls : List Call} {t : MctsTree} (hrun : Run (fun _ _ codes => Plain codes) calls t) :
    Shape t ∧ Records calls t :=
  hrun.shape_rule id (J := Records) records_initial
    (fun hshape ih hcodes hregions => ih.expand hshape hregions hcodes) (fun ih hsame => ih.of_label hsame.label)

/-- After any number of expansions the tree is the trie of the responses: it has the nodes of
their prefixes, each once, with the ids of the codes from the root on, and siblings differ. Each
call has reported whether its response was new. -/
theorem Run.trie {calls : List Call} {t : MctsTree} (hrun : Run (fun _ _ codes => Plain codes) calls t)
    (hcalls : calls ≠ []) :
    (∀ x, t.Has x ↔ x ≠ [] ∧ ∃ call ∈ calls, x <+: call.response_codes) ∧
    (∀ v u x, t.At v x → t.At u x → v = u) ∧
    (∀ v x, t.At v x → IdsFromRoot t v x) ∧
    (∀ (v u : NodeId) (n m : GNode), t.nodes[v]? = some n → t.nodes[u]? = some m → n.parent = m.parent → v ≠ u →
      n.data.id ≠ m.data.id) ∧
    (∀ earlier call later, calls = earlier ++ call :: later →
      (call.new_path = true ↔ ∀ old ∈ earlier, ¬ call.response_codes <+: old.response_codes)) := by
  obtain ⟨hshape, hrecords⟩ := hrun.records
  refine ⟨fun x => ?_, fun v u x hv hu => hshape.at_unique hv hu, fun v x hv => hshape.ids_from_root hv,
    fun v u n m hv hu hparent hne hid => hne (hshape.distinct hv hu hparent hid), hrecords.reported⟩
  rw [hrecords.has_iff]
  constructor
  · rintro (rfl | hx)
    · obtain ⟨call, hcall⟩ := List.exists_mem_of_ne_nil calls hcalls
      exact ⟨by simp, call, hcall, hrecords.starts call hcall⟩
    · exact hx
  · exact Or.inr

/-- A queue entry with a single request, answered by code 5. -/
def single_entry : queue_entry := .of_regions "id:000001" [.annotated 0 9 [0, 5]]

theorem plain_single : Plain [0, 5] := ⟨by decide, rfl, by decide⟩

/-- The tree has a node for the one response it was expanded by. -/
theorem trie_of_single_entry : (MctsTree.initial.expand single_entry [0, 5]).1.Has [0, 5] := by
  have hrun := (Run.initial : Run (fun _ _ codes => Plain codes) [] .initial).expand (q := single_entry)
    plain_single (by decide) (by decide)
  exact ((Run.trie hrun (by simp)).1 [0, 5]).mpr ⟨by simp, _, List.mem_singleton.mpr rfl, List.prefix_rfl⟩

end aflnet.mcts
