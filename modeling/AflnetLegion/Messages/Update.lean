import AflnetLegion.Messages.Replace

open Checked

namespace aflnet

/-- What comes behind M2 is a node of the list or its sentinel, and no node of M2. -/
theorem klist_lms.Contains.stop {kl : klist_lms} {A B C D : List Nat} {t : Nat}
    (h : kl.Contains (A ++ B ++ C ++ D) t) :
    ∃ y, C.head?.or kl.tail = some y ∧ (∃ n, kl.nodes.get? y = some n) ∧ y ∉ B := by
  cases C with
  | nil =>
    refine ⟨t, ?_, h.live_tail, fun hmem => h.tail_not_mem (by simp [hmem])⟩
    rw [List.head?_nil, Option.none_or, h.tail]
  | cons c C =>
    refine ⟨c, rfl, h.live_node (by simp), ?_⟩
    intro hmem
    have hnodup := (List.nodup_append.mp h.nodup_nodes).1
    exact (List.nodup_append.mp hnodup).2.2 c (List.mem_append_right _ hmem) c (List.mem_cons_self ..) rfl

/-- Once the new messages are appended, they are put in the place of M2, and M2 is
released. -/
theorem Messages.Grown.replace {st : Messages} {A B C D : List Nat} {t e d : Nat} {M1 M2 M3 N : List message_t}
    (h : st.Grown A B C D t M1 M2 M3 N) (hfirst : A.length = M1.length) (hmiddle : B.length = M2.length)
    (hlast : D.length = N.length) (hbefore : st.M2_prev = A.getLast?) (hB : B ≠ []) (hD : D ≠ [])
    (he : (B ++ C).getLast? = some e) (hd : D.getLast? = some d) :
    ∃ replaced next kl heap,
      replace_M2 st.kl_messages st.M2_prev st.M2_next (some e) (some d) = pure replaced ∧
      kl_next replaced.1 replaced.2 = pure next ∧
      free_M2 st.M2_next replaced.1.nodes.cells.length replaced.2 next replaced.1 st.heap = pure (kl, heap) ∧
      Split { st with kl_messages := kl, heap } A D C t M1 N M3 ∧ kl.mp = B.reverse ++ st.kl_messages.mp ∧
      (∀ q, some q ∈ B.map st.kl_messages.data → heap.get? q = none) ∧
      ∀ q, some q ∉ B.map st.kl_messages.data → heap.get? q = st.heap.get? q := by
  have hsub : ∀ x ∈ B, x ∈ A ++ B ++ C ++ D := fun x hx => by simp [hx]
  obtain ⟨kl, hreplace, hrelinks, hpath, hpathB⟩ := h.lists.toContains.replace_M2_eq hB hD he hd
  obtain ⟨y, hy, hstop, hout⟩ := h.lists.toContains.stop
  have hlive : ∀ x ∈ B, ∃ n, kl.nodes.get? x = some n := fun x hx =>
    hrelinks.live x (h.lists.live_node (hsub x hx))
  have hmessages : ∀ x ∈ B, ∃ p m, kl.data x = some p ∧ st.heap.get? p = some m := by
    intro x hx
    rw [hrelinks.data]
    exact h.lists.exists_message (hsub x hx)
  have hsame : B.map kl.data = B.map st.kl_messages.data := List.map_congr_left fun x _ => hrelinks.data x
  have hnodup : B.Nodup := h.lists.nodup_nodes.sublist
    (((List.sublist_append_right A B).trans (List.sublist_append_left _ C)).trans (List.sublist_append_left _ D))
  have hdistinct : (B.map kl.data).Nodup := by
    rw [hsame]
    exact h.lists.distinct.sublist ((((List.sublist_append_right A B).trans (List.sublist_append_left _ C)).trans
      (List.sublist_append_left _ D)).map _)
  have hfuel := Heap.length_le_of_nodup hnodup hlive
  have hreplaced := h.lists.toContains.replaced hrelinks hpath
  have hnext : st.M2_next = some y := h.behind.trans hy
  rw [hy, ← hbefore, ← hnext] at hreplace
  rw [hy] at hpathB
  cases B with
  | nil => exact absurd rfl hB
  | cons b B =>
    obtain ⟨n, hn⟩ := hlive b (List.mem_cons_self ..)
    obtain ⟨heap, hfree, hfreed, hkept⟩ := free_M2_eq hpathB hlive (hrelinks.live y hstop) hout hmessages hdistinct hfuel
    rw [hsame] at hfreed hkept
    rw [← hnext] at hfree
    refine ⟨_, _, _, heap, hreplace, kl_next_eq hn, hfree, ⟨?_, hfirst, hlast, hD, hbefore, ?_⟩, ?_, hfreed, hkept⟩
    · exact h.lists.replaced hfirst hmiddle hlast hreplaced (fun x => hrelinks.data x) hkept
    · change st.M2_next = C.head?.or kl.tail
      rw [h.behind, hrelinks.tail]
    · change (b :: B).reverse ++ kl.mp = _
      rw [hrelinks.mp]

/-- One call puts the regions of the buffer in the place of M2. -/
theorem Messages.Split.update {st : Messages} {A B C : List Nat} {t : Nat} {M1 M2 M3 : List message_t}
    (h : st.Split A B C t M1 M2 M3) {extract_requests : List UInt8 → List region_t} {out_buf : List UInt8}
    (hregions : Partitions (extract_requests out_buf) out_buf.length) (hne : out_buf ≠ [])
    (hmax : out_buf.length ≤ MAX_ALLOC) (max_seed_region_count : Nat) : ∃ st' D t' N,
      update_kl_messages extract_requests max_seed_region_count out_buf st = pure st' ∧
      st'.Split A D C t' M1 N M3 ∧ (N.map message_t.mdata).flatten = out_buf ∧ st.Released B D st' := by
  have hsome : extract_requests out_buf ≠ [] := by
    intro hnil
    have htiles := hregions.tiles
    rw [hnil] at htiles
    exact hne (List.eq_nil_of_length_eq_zero (Eq.symm htiles))
  obtain ⟨e, he⟩ : ∃ e, (B ++ C).getLast? = some e :=
    ⟨_, List.getLast?_eq_some_getLast (List.append_ne_nil_of_left_ne_nil h.nonempty C)⟩
  have hprev : get_last_message st.kl_messages = pure (some e) := by
    have hlast : (A ++ B ++ C).getLast? = some e := by
      rw [List.append_assoc, List.getLast?_append, he]
      rfl
    obtain ⟨front, hfront⟩ := List.getLast?_eq_some_iff.mp hlast
    have hcontains := h.lists.toContains
    rw [hfront] at hcontains
    exact hcontains.get_last_message_eq
  have hstart : st.Grown A B C [] t M1 M2 M3 [] := ⟨by simpa using h.lists, h.behind⟩
  obtain ⟨st₁, D, t₁, N, hpush, hgrown, hextends, hcount, hpushed, hflatten⟩ := hstart.push_regions hregions.tiles
    (fun r hr => ⟨(hregions.proper r hr).1, (hregions.proper r hr).2.1⟩) (Nat.le_refl _) hmax max_seed_region_count 0
  rw [List.nil_append, List.nil_append] at hgrown
  rw [List.append_nil] at hextends
  have hD := hpushed hsome
  obtain ⟨d, hd⟩ : ∃ d, D.getLast? = some d := ⟨_, List.getLast?_eq_some_getLast hD⟩
  have hcur : get_last_message st₁.kl_messages = pure (some d) := by
    obtain ⟨front, hfront⟩ := List.getLast?_eq_some_iff.mp hd
    have hcontains := hgrown.lists.toContains
    rw [hfront, ← List.append_assoc] at hcontains
    exact hcontains.get_last_message_eq
  obtain ⟨replaced, next, kl, heap, hreplace, hnext, hfree, hsplit, hmp, hfreed, hkept⟩ :=
    hgrown.replace h.first h.middle hcount (hextends.before.trans h.before) h.nonempty hD he hd
  have hdata : B.map st₁.kl_messages.data = B.map st.kl_messages.data :=
    List.map_congr_left fun x hx => hextends.data x (by simp [hx])
  rw [hdata] at hfreed hkept
  refine ⟨_, D, t₁, N, ?_, hsplit, ?_, ?_, ?_⟩
  · rw [update_kl_messages, if_neg hsome, hprev, pure_bind, hpush, pure_bind, hcur, pure_bind, hreplace, pure_bind, hnext,
      pure_bind, hfree, pure_bind]
  · rw [hflatten, Nat.sub_zero, Tiling.slice_all]
  · rw [← hextends.mp]
    exact hmp
  · intro p m hm
    constructor
    · intro hnone
      by_contra hout
      rw [hkept p (fun hmem => hout (List.mem_map.mp hmem)), hextends.heap p m hm] at hnone
      cases hnone
    · intro hx
      exact hfreed p (List.mem_map.mpr hx)

end aflnet
