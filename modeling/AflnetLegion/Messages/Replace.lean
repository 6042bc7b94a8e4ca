import AflnetLegion.Messages.Append

open Checked

namespace aflnet

/-- The list with the link of one node changed, and everything else as it was. -/
def klist_lms.with_next (kl : klist_lms) (x : Nat) (next : Ptr) : klist_lms :=
  match kl.nodes.get? x with
  | none => kl
  | some n => { kl with nodes := kl.nodes.put x { n with next } }

namespace klist_lms

variable {kl : klist_lms} {x y : Nat} {n : kl1_lms}

theorem with_next_eq (hx : kl.nodes.get? x = some n) (next : Ptr) :
    kl.with_next x next = { kl with nodes := kl.nodes.put x { n with next } } := by
  rw [with_next]
  simp only [hx]

@[simp] theorem with_next_head (kl : klist_lms) (x : Nat) (next : Ptr) : (kl.with_next x next).head = kl.head := by
  rw [with_next]
  split <;> rfl

@[simp] theorem with_next_tail (kl : klist_lms) (x : Nat) (next : Ptr) : (kl.with_next x next).tail = kl.tail := by
  rw [with_next]
  split <;> rfl

@[simp] theorem with_next_mp (kl : klist_lms) (x : Nat) (next : Ptr) : (kl.with_next x next).mp = kl.mp := by
  rw [with_next]
  split <;> rfl

@[simp] theorem with_next_size (kl : klist_lms) (x : Nat) (next : Ptr) : (kl.with_next x next).size = kl.size := by
  rw [with_next]
  split <;> rfl

theorem with_next_next_self (hx : kl.nodes.get? x = some n) (next : Ptr) : (kl.with_next x next).next x = next := by
  rw [with_next_eq hx]
  exact (next_eq (Heap.get?_put_self hx)).trans rfl

theorem with_next_next_of_ne (hne : x ≠ y) (next : Ptr) : (kl.with_next x next).next y = kl.next y := by
  rw [with_next]
  split
  · rfl
  · rw [klist_lms.next, klist_lms.next, Heap.get?_put_of_ne hne]

@[simp] theorem with_next_data (kl : klist_lms) (x : Nat) (next : Ptr) (y : Nat) :
    (kl.with_next x next).data y = kl.data y := by
  rw [with_next]
  split
  · rfl
  · rename_i n hx
    by_cases hxy : x = y
    · subst hxy
      have hput := Heap.get?_put_self (b := { n with next }) hx
      rw [data_eq hx, data, hput, Option.bind_some]
    · rw [data, data, Heap.get?_put_of_ne hxy]

theorem with_next_live (next : Ptr) (hy : ∃ m, kl.nodes.get? y = some m) :
    ∃ m, (kl.with_next x next).nodes.get? y = some m := by
  rw [with_next]
  split
  · exact hy
  · rename_i n hx
    by_cases hxy : x = y
    · subst hxy
      exact ⟨_, Heap.get?_put_self hx⟩
    · rw [Heap.get?_put_of_ne hxy]
      exact hy

end klist_lms

theorem set_next_eq_with_next {kl : klist_lms} {x : Nat} (hx : ∃ n, kl.nodes.get? x = some n) (next : Ptr) :
    set_next kl (some x) next = pure (kl.with_next x next) := by
  obtain ⟨n, hn⟩ := hx
  rw [set_next_eq hn, klist_lms.with_next_eq hn]

/-- Two lists that differ in their head and in links only. Nodes, their contents, the pool and
the count are the same. -/
structure klist_lms.Relinks (kl kl' : klist_lms) : Prop where
  tail : kl'.tail = kl.tail
  mp : kl'.mp = kl.mp
  size : kl'.size = kl.size
  data : ∀ x, kl'.data x = kl.data x
  live : ∀ x, (∃ n, kl.nodes.get? x = some n) → ∃ n, kl'.nodes.get? x = some n

theorem klist_lms.Relinks.with_head (kl : klist_lms) (head : Ptr) : kl.Relinks { kl with head } :=
  ⟨rfl, rfl, rfl, fun _ => rfl, fun _ hx => hx⟩

theorem klist_lms.Relinks.with_next {kl kl' : klist_lms} (h : kl.Relinks kl') (x : Nat) (next : Ptr) :
    kl.Relinks (kl'.with_next x next) where
  tail := by rw [with_next_tail, h.tail]
  mp := by rw [with_next_mp, h.mp]
  size := by rw [with_next_size, h.size]
  data := fun y => by rw [with_next_data, h.data]
  live := fun y hy => with_next_live next (h.live y hy)

theorem klist_lms.Relinks.refl (kl : klist_lms) : kl.Relinks kl := ⟨rfl, rfl, rfl, fun _ => rfl, fun _ hx => hx⟩

/-- What the last two assignments of the replacement do, once M1 leads to the new
nodes. -/
theorem klist_lms.Contains.relink {kl kl₀ : klist_lms} {A B C D : List Nat} {t e d : Nat}
    (h : kl.Contains (A ++ B ++ C ++ D) t) (hB : B ≠ []) (hD : D ≠ []) (he : (B ++ C).getLast? = some e)
    (hd : D.getLast? = some d) (hrelinks : kl.Relinks kl₀) (hhead : kl₀.head = if A = [] then D.head? else kl.head)
    (hsame : ∀ x, A.getLast? ≠ some x → kl₀.next x = kl.next x)
    (hfirst : ∀ x, A.getLast? = some x → kl₀.next x = D.head?) :
    ∃ linked kl', set_next kl₀ (some d) (C.head?.or kl.tail) = pure linked ∧
      set_next linked (some e) kl.tail = pure kl' ∧ kl.Relinks kl' ∧
      Chain.Path kl'.next kl'.head (A ++ D ++ C) kl.tail ∧ Chain.Path kl'.next B.head? B (C.head?.or kl.tail) := by
  have hemem : e ∈ A ++ B ++ C := by
    rw [List.append_assoc]
    exact List.mem_append_right _ (List.mem_of_getLast? he)
  have hdmem := List.mem_of_getLast? hd
  have hdisjoint := (List.nodup_append.mp h.nodup_nodes).2.2
  have hde : d ≠ e := fun heq => hdisjoint e hemem d hdmem heq.symm
  have hlive_e := h.live_node (List.mem_append_left _ hemem)
  have hlive_d := h.live_node (List.mem_append_right _ hdmem)
  have hrelinks₁ := hrelinks.with_next d (C.head?.or kl.tail)
  refine ⟨_, (kl₀.with_next d (C.head?.or kl.tail)).with_next e kl.tail, set_next_eq_with_next (hrelinks.live d hlive_d) _,
    set_next_eq_with_next (hrelinks₁.live e hlive_e) _, hrelinks₁.with_next e kl.tail, ?_⟩
  · obtain ⟨n, hn⟩ := hrelinks₁.live e hlive_e
    obtain ⟨k, hk⟩ := hrelinks.live d hlive_d
    have hpath := h.path
    rw [h.tail] at hpath ⊢
    rw [h.tail] at hn
    rw [with_next_head, with_next_head, hhead]
    refine hpath.splice hB hD h.nodup_nodes ?_ ?_ ?_ ?_
    · intro x _ hxa hxe hxd
      have hex : e ≠ x := by
        rintro rfl
        exact hxe he
      have hdx : d ≠ x := by
        rintro rfl
        exact hxd hd
      rw [with_next_next_of_ne hex, with_next_next_of_ne hdx]
      exact hsame x hxa
    · intro x hx
      have hxmem := List.mem_of_getLast? hx
      have hxe : e ≠ x := by
        rintro rfl
        have hnodup := (List.nodup_append.mp h.nodup_nodes).1
        rw [List.append_assoc] at hnodup
        exact (List.nodup_append.mp hnodup).2.2 e hxmem e (List.mem_of_getLast? he) rfl
      have hxd : d ≠ x := fun heq => hdisjoint x (by simp [hxmem]) d hdmem heq.symm
      rw [with_next_next_of_ne hxe, with_next_next_of_ne hxd]
      exact hfirst x hx
    · intro x hx
      rw [he] at hx
      cases hx
      exact with_next_next_self hn _
    · intro x hx
      rw [hd] at hx
      cases hx
      rw [with_next_next_of_ne (Ne.symm hde)]
      exact with_next_next_self hk _

/-- The new nodes take the place of M2, and M2 is left as a list of its own that
leads to M3. -/
theorem klist_lms.Contains.replace_M2_eq {kl : klist_lms} {A B C D : List Nat} {t e d : Nat}
    (h : kl.Contains (A ++ B ++ C ++ D) t) (hB : B ≠ []) (hD : D ≠ []) (he : (B ++ C).getLast? = some e)
    (hd : D.getLast? = some d) :
    ∃ kl', replace_M2 kl A.getLast? (C.head?.or kl.tail) (some e) (some d) = pure (kl', B.head?) ∧ kl.Relinks kl' ∧
      Chain.Path kl'.next kl'.head (A ++ D ++ C) kl.tail ∧ Chain.Path kl'.next B.head? B (C.head?.or kl.tail) := by
  have hemem : e ∈ A ++ B ++ C := by
    rw [List.append_assoc]
    exact List.mem_append_right _ (List.mem_of_getLast? he)
  obtain ⟨n, hn⟩ := h.live_node (List.mem_append_left D hemem)
  have hfirst : kl.next e = D.head? := by
    have hlast : (A ++ B ++ C).getLast? = some e := by
      rw [List.append_assoc, List.getLast?_append, he]
      rfl
    obtain ⟨front, hfront⟩ := List.getLast?_eq_some_iff.mp hlast
    have hcontains := h
    rw [hfront, List.append_assoc] at hcontains
    rw [hcontains.next_eq]
    cases D with
    | nil => exact absurd rfl hD
    | cons d D => rfl
  have hbegin : ∀ rest, (B ++ rest).head?.or kl.tail = B.head? := by
    intro rest
    cases B with
    | nil => exact absurd rfl hB
    | cons b B => rfl
  cases hlast : A.getLast? with
  | none =>
    have hnil : A = [] := List.getLast?_eq_none_iff.mp hlast
    have hhead : kl.head = B.head? := by
      have hstart := h.path.start_eq
      rw [hnil, List.nil_append, List.append_assoc] at hstart
      rw [hstart]
      exact hbegin _
    obtain ⟨linked, kl', hlinked, hrest, hrelinks, hpaths⟩ := h.relink hB hD he hd (Relinks.with_head kl D.head?)
      (by rw [if_pos hnil]) (fun _ _ => rfl) (fun x hx => by rw [hlast] at hx; cases hx)
    refine ⟨kl', ?_, hrelinks, hpaths⟩
    rw [replace_M2, kl_next_eq hn, pure_bind, hfirst, hlinked, pure_bind, hrest, pure_bind, hhead]
  | some a =>
    have hamem := List.mem_of_getLast? hlast
    have hne : A ≠ [] := List.ne_nil_of_mem hamem
    obtain ⟨k, hk⟩ := h.live_node (show a ∈ A ++ B ++ C ++ D by simp [hamem])
    have hold : kl.next a = B.head? := by
      obtain ⟨front, hfront⟩ := List.getLast?_eq_some_iff.mp hlast
      have hcontains := h
      rw [hfront, List.append_assoc, List.append_assoc, List.append_assoc] at hcontains
      rw [hcontains.next_eq]
      exact hbegin _
    obtain ⟨linked, kl', hlinked, hrest, hrelinks, hpaths⟩ := h.relink hB hD he hd
      ((Relinks.refl kl).with_next a D.head?) (by rw [if_neg hne, with_next_head])
      (fun x hx => with_next_next_of_ne (fun heq => hx (by rw [hlast, heq])) _)
      (fun x hx => by rw [hlast] at hx; cases hx; exact with_next_next_self hk _)
    refine ⟨kl', ?_, hrelinks, hpaths⟩
    rw [replace_M2, kl_next_eq hk, pure_bind, kl_next_eq hn, pure_bind, hfirst, set_next_eq_with_next ⟨k, hk⟩, pure_bind,
      hlinked, pure_bind, hrest, pure_bind, hold]

theorem ck_free_eq {heap : Heap message_t} {p : Nat} {m : message_t} (hp : heap.get? p = some m) :
    ck_free heap (some p) = pure (heap.free p) := by
  rw [ck_free, deref_message, Option.bind_some, hp]
  rfl

/-- One round of the loop. -/
theorem free_M2_step {kl : klist_lms} {heap : Heap message_t} {x z p : Nat} {m : message_t} {stop : Ptr} (fuel : Nat)
    (hx : ∃ n, kl.nodes.get? x = some n) (hz : ∃ k, kl.nodes.get? z = some k) (hnext : kl.next x = some z)
    (hp : kl.data x = some p) (hm : heap.get? p = some m) :
    free_M2 stop (fuel + 1) (some x) (kl.next x) kl heap =
      if (some z : Ptr) = stop then pure (release_node kl x, heap.free p)
      else free_M2 stop fuel (some z) ((release_node kl x).next z) (release_node kl x) (heap.free p) := by
  obtain ⟨n, hn⟩ := hx
  obtain ⟨k, hk⟩ := hz
  have hdata : n.data = some p := (klist_lms.data_eq hn).symm.trans hp
  have hk' : (release_node kl x).nodes.get? z = some k := hk
  rw [free_M2, deref_node_eq hn, pure_bind]
  dsimp only
  rw [hdata, ck_free_eq hm, pure_bind, hnext, kl_next_eq hk', pure_bind]

/-- Freeing the message of a node leaves those of other nodes alone. -/
theorem messages_free {kl : klist_lms} {heap : Heap message_t} {x p : Nat} {B : List Nat} (hp : kl.data x = some p)
    (hfresh : kl.data x ∉ B.map kl.data) (hmessages : ∀ w ∈ B, ∃ q r, kl.data w = some q ∧ heap.get? q = some r) :
    ∀ w ∈ B, ∃ q r, (release_node kl x).data w = some q ∧ (heap.free p).get? q = some r := by
  intro w hw
  obtain ⟨q, r, hq, hr⟩ := hmessages w hw
  have hpq : p ≠ q := by
    rintro rfl
    apply hfresh
    rw [hp, ← hq]
    exact List.mem_map_of_mem hw
  exact ⟨q, r, hq, by rw [Heap.get?_free_of_ne hpq, hr]⟩

/-- The loop gives the nodes of the previous M2 to the pool, and frees their messages
and no others. -/
theorem free_M2_eq {kl : klist_lms} {heap : Heap message_t} {x y : Nat} {B : List Nat} {fuel : Nat}
    (hpath : Chain.Path kl.next (some x) (x :: B) (some y)) (hlive : ∀ z ∈ x :: B, ∃ n, kl.nodes.get? z = some n)
    (hstop : ∃ n, kl.nodes.get? y = some n) (hy : y ∉ x :: B)
    (hmessages : ∀ z ∈ x :: B, ∃ p m, kl.data z = some p ∧ heap.get? p = some m)
    (hdistinct : ((x :: B).map kl.data).Nodup) (hfuel : B.length < fuel) :
    ∃ heap', free_M2 (some y) fuel (some x) (kl.next x) kl heap =
        pure ({ kl with mp := (x :: B).reverse ++ kl.mp, size := kl.size - (x :: B).length }, heap') ∧
      (∀ q, some q ∈ (x :: B).map kl.data → heap'.get? q = none) ∧
      ∀ q, some q ∉ (x :: B).map kl.data → heap'.get? q = heap.get? q := by
  induction B generalizing x kl heap fuel with
  | nil =>
    obtain ⟨p, m, hp, hm⟩ := hmessages x (List.mem_cons_self ..)
    refine ⟨heap.free p, ?_, ?_, ?_⟩
    · cases fuel with
      | zero => cases hfuel
      | succ fuel =>
        rw [free_M2_step fuel (hlive x (List.mem_cons_self ..)) hstop hpath.2 hp hm, if_pos rfl]
        rfl
    · intro q hq
      rw [List.map_singleton, List.mem_singleton, hp, Option.some_inj] at hq
      rw [hq, Heap.get?_free_self]
    · intro q hq
      rw [List.map_singleton, List.mem_singleton, hp, Option.some_inj] at hq
      rw [Heap.get?_free_of_ne (Ne.symm hq)]
  | cons z B ih =>
    obtain ⟨p, m, hp, hm⟩ := hmessages x (List.mem_cons_self ..)
    obtain ⟨_, hrest⟩ := hpath
    have hnext : kl.next x = some z := hrest.1
    have hzy : (some z : Ptr) ≠ some y := by
      intro heq
      cases heq
      exact hy (List.mem_cons_of_mem _ (List.mem_cons_self ..))
    rw [List.map_cons, List.nodup_cons] at hdistinct
    obtain ⟨hfresh, hdistinct⟩ := hdistinct
    have hmessages' := messages_free hp hfresh fun w hw => hmessages w (List.mem_cons_of_mem _ hw)
    have hpath' : Chain.Path (release_node kl x).next (some z) (z :: B) (some y) := hnext ▸ hrest
    cases fuel with
    | zero => cases hfuel
    | succ fuel =>
      obtain ⟨heap', heq, hfreed, hkept⟩ := ih hpath' (fun w hw => hlive w (List.mem_cons_of_mem _ hw)) hstop
        (fun hmem => hy (List.mem_cons_of_mem _ hmem)) hmessages' hdistinct (Nat.lt_of_succ_lt_succ hfuel)
      have hsame : (z :: B).map (release_node kl x).data = (z :: B).map kl.data := rfl
      rw [hsame] at hfreed hkept
      refine ⟨heap', ?_, ?_, ?_⟩
      · have hmp : (x :: z :: B).reverse ++ kl.mp = (z :: B).reverse ++ x :: kl.mp := by
          rw [List.reverse_cons, List.append_assoc]
          rfl
        have hsize : kl.size - (x :: z :: B).length = kl.size - 1 - (z :: B).length := by
          rw [List.length_cons]
          omega
        rw [free_M2_step fuel (hlive x (List.mem_cons_self ..))
          (hlive z (List.mem_cons_of_mem _ (List.mem_cons_self ..))) hnext hp hm, if_neg hzy, hmp, hsize]
        exact heq
      · intro q hq
        rw [List.map_cons, List.mem_cons, hp, Option.some_inj] at hq
        by_cases hmem : some q ∈ (z :: B).map kl.data
        · exact hfreed q hmem
        · rw [hkept q hmem, hq.resolve_right hmem, Heap.get?_free_self]
      · intro q hq
        rw [List.map_cons, List.mem_cons, hp, Option.some_inj, not_or] at hq
        rw [hkept q hq.2, Heap.get?_free_of_ne (Ne.symm hq.1)]

/-- What a replacement has released: the nodes `B`, which are now in the pool, and
their messages. The nodes `D` came from the pool as long as it had any. -/
structure Messages.Released (st : Messages) (B D : List Nat) (st' : Messages) : Prop where
  mp : st'.kl_messages.mp = B.reverse ++ st.kl_messages.mp.drop D.length
  heap : ∀ (p : Nat) (m : message_t), st.heap.get? p = some m →
    (st'.heap.get? p = none ↔ ∃ x ∈ B, st.kl_messages.data x = some p)

/-- The nodes in use before and after the replacement are the same, in a different order: what
M2 had goes to the pool. -/
theorem perm_replaced (A B C D mp : List Nat) (t : Nat) :
    (A ++ D ++ C ++ t :: (B.reverse ++ mp)).Perm (A ++ B ++ C ++ D ++ t :: mp) := by
  refine List.perm_iff_count.mpr fun x => ?_
  simp only [List.count_append, List.count_cons, List.count_reverse]
  omega

/-- The new list, once M2 is out of it and has been given to the pool. -/
theorem klist_lms.Contains.replaced {kl kl' : klist_lms} {A B C D : List Nat} {t : Nat}
    (h : kl.Contains (A ++ B ++ C ++ D) t) (hrelinks : kl.Relinks kl')
    (hpath : Chain.Path kl'.next kl'.head (A ++ D ++ C) kl.tail) :
    klist_lms.Contains { kl' with mp := B.reverse ++ kl'.mp, size := kl'.size - B.length } (A ++ D ++ C) t where
  path := by
    rw [← hrelinks.tail] at hpath
    exact hpath
  tail := hrelinks.tail.trans h.tail
  live := by
    intro x hx
    refine hrelinks.live x (h.live x ?_)
    rw [hrelinks.mp] at hx
    exact (perm_replaced A B C D kl.mp t).mem_iff.mp hx
  nodup := by
    rw [hrelinks.mp]
    exact (perm_replaced A B C D kl.mp t).nodup_iff.mpr h.nodup
  size := by
    have hsize := h.size
    simp only [List.length_append] at hsize ⊢
    rw [hrelinks.size]
    omega

/-- The nodes of M2 and the others. -/
theorem perm_dropped (A B C D : List Nat) : (A ++ B ++ C ++ D).Perm (B ++ (A ++ D ++ C)) := by
  apply List.perm_iff_count.mpr
  intro x
  simp only [List.count_append]
  omega

/-- No other node has a message of M2. -/
theorem Lists.distinct_dropped {kl : klist_lms} {heap : Heap message_t} {A B C D : List Nat} {t : Nat}
    {ms : List message_t} (h : Lists kl heap (A ++ B ++ C ++ D) t ms) :
    (B.map kl.data ++ (A ++ D ++ C).map kl.data).Nodup := by
  rw [← List.map_append]
  exact ((perm_dropped A B C D).map kl.data).nodup_iff.mp h.distinct

/-- The messages of the new list: those of M1, the new ones, and those of M3. -/
theorem Lists.replaced {kl kl' : klist_lms} {heap heap' : Heap message_t} {A B C D : List Nat} {t : Nat}
    {M1 M2 M3 N : List message_t} (h : Lists kl heap (A ++ B ++ C ++ D) t (M1 ++ M2 ++ M3 ++ N))
    (hfirst : A.length = M1.length) (hmiddle : B.length = M2.length) (hlast : D.length = N.length)
    (hcontains : kl'.Contains (A ++ D ++ C) t) (hdata : ∀ x, kl'.data x = kl.data x)
    (hkept : ∀ q, some q ∉ B.map kl.data → heap'.get? q = heap.get? q) :
    Lists kl' heap' (A ++ D ++ C) t (M1 ++ N ++ M3) where
  toContains := hcontains
  messages := by
    have hperm := perm_dropped A B C D
    have hdistinct := h.distinct_dropped
    have hsame : (A ++ D ++ C).map (message kl' heap') = (A ++ D ++ C).map (message kl heap) := by
      refine List.map_congr_left fun x hx => ?_
      obtain ⟨p, m, hp, hm⟩ := h.exists_message (hperm.mem_iff.mpr (List.mem_append_right _ hx))
      have hout : some p ∉ B.map kl.data := by
        intro hmem
        refine (List.nodup_append.mp hdistinct).2.2 _ hmem _ (List.mem_map_of_mem hx) ?_
        rw [hp]
      rw [message, message, hdata, hp, Option.bind_some, Option.bind_some, hkept p hout]
    have hparts := h.messages
    simp only [List.map_append] at hparts hsame ⊢
    obtain ⟨habc, hd⟩ := List.append_inj' hparts (by simp [hlast])
    obtain ⟨hab, hc⟩ := List.append_inj habc (by simp [hfirst, hmiddle])
    obtain ⟨ha, _⟩ := List.append_inj hab (by simp [hfirst])
    rw [hsame, ha, hc, hd]
  distinct := by
    rw [List.map_congr_left fun x _ => hdata x]
    exact (List.nodup_append.mp h.distinct_dropped).2.1

end aflnet
