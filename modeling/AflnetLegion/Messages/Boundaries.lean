import AflnetLegion.Messages.Update

open Checked

namespace aflnet

/-- The last node of M1 among the nodes `xs`, if M2 starts at the index `start`. -/
def M2_prev_of (xs : List Nat) (start : Nat) : Ptr := if start = 0 then none else xs[start - 1]?

/-- The last element of a list has the index of its length without it. -/
theorem getElem?_concat (front : List Nat) (x i : Nat) :
    (front ++ [x])[i]? = if front.length = i then some x else front[i]? := by
  split
  · rename_i heq
    rw [← heq, List.getElem?_concat_length]
  · rename_i hne
    rcases Nat.lt_or_ge i front.length with hlt | hge
    · rw [List.getElem?_append_left hlt]
    · rw [List.getElem?_eq_none hge, List.getElem?_eq_none]
      rw [List.length_append, List.length_singleton]
      omega

/-- From any node on, the loop of `fuzz_one` completes what it found so far. -/
theorem klist_lms.Contains.find_boundaries_from {kl : klist_lms} {xs front rest : List Nat} {t fuel : Nat} {it : Ptr}
    {start count i : UInt32} (h : kl.Contains xs t) (hxs : xs = front ++ rest)
    (hpath : Chain.Path kl.next it rest kl.tail) (hfuel : rest.length < fuel) (hi : i.toNat = front.length)
    (hfew : xs.length < 4294967296) (hwrap : start.toNat + count.toNat < 4294967296) :
    find_boundaries kl start count fuel it i (M2_prev_of front start.toNat)
      (front[start.toNat + count.toNat]?.or kl.tail) =
    pure (M2_prev_of xs start.toNat, xs[start.toNat + count.toNat]?.or kl.tail) := by
  induction rest generalizing front it fuel i with
  | nil =>
    cases fuel with
    | zero => cases hfuel
    | succ fuel =>
      rw [find_boundaries, if_pos (Chain.path_nil.mp hpath), hxs, List.append_nil]
  | cons x rest ih =>
    obtain ⟨rfl, hrest⟩ := hpath
    have hmem : x ∈ xs := by simp [hxs]
    obtain ⟨n, hn⟩ := h.live_node hmem
    have hnot : (some x : Ptr) ≠ kl.tail := by
      rw [h.tail]
      intro heq
      cases heq
      exact h.tail_not_mem hmem
    have hlength : xs.length = front.length + (rest.length + 1) := by
      rw [hxs, List.length_append, List.length_cons]
    have hnext : (i + 1).toNat = (front ++ [x]).length := by
      rw [UInt32.toNat_add, hi, List.length_append]
      change (front.length + 1) % 4294967296 = front.length + 1
      omega
    have hsplit : xs = (front ++ [x]) ++ rest := by simp [hxs]
    -- at the last node of M1, which is not reached if `M2_start_region_ID - 1` wraps around
    have hprev : (if i = start - 1 then some x else M2_prev_of front start.toNat) =
        M2_prev_of (front ++ [x]) start.toNat := by
      have hiff : i = start - 1 ↔ start.toNat ≠ 0 ∧ front.length = start.toNat - 1 := by
        have hsub : (start - 1).toNat = (4294967296 - 1 + start.toNat) % 4294967296 := UInt32.toNat_sub start 1
        have hlt : start.toNat < 4294967296 := start.toNat_lt
        rw [← UInt32.toNat_inj, hi, hsub]
        omega
      rw [M2_prev_of, M2_prev_of, getElem?_concat]
      by_cases hzero : start.toNat = 0
      · rw [if_pos hzero, if_pos hzero, if_neg (fun heq => (hiff.mp heq).1 hzero)]
      · rw [if_neg hzero, if_neg hzero]
        by_cases heq : i = start - 1
        · rw [if_pos heq, if_pos (hiff.mp heq).2]
        · rw [if_neg heq, if_neg (fun hlast => heq (hiff.mpr ⟨hzero, hlast⟩))]
    have hbehind : (if i = start + count then some x else front[start.toNat + count.toNat]?.or kl.tail) =
        (front ++ [x])[start.toNat + count.toNat]?.or kl.tail := by
      have hiff : i = start + count ↔ front.length = start.toNat + count.toNat := by
        rw [← UInt32.toNat_inj, hi, UInt32.toNat_add]
        change front.length = (start.toNat + count.toNat) % 4294967296 ↔ _
        rw [Nat.mod_eq_of_lt hwrap]
      rw [getElem?_concat]
      by_cases heq : i = start + count
      · rw [if_pos heq, if_pos (hiff.mp heq), Option.some_or]
      · rw [if_neg heq, if_neg (fun hlast => heq (hiff.mpr hlast))]
    cases fuel with
    | zero => cases hfuel
    | succ fuel =>
      rw [find_boundaries, if_neg hnot, kl_next_eq hn, pure_bind, hprev, hbehind]
      exact ih hsplit hrest (Nat.lt_of_succ_lt_succ hfuel) hnext

/-- The boundaries `fuzz_one` finds: the node before M2 and the one behind it. -/
theorem klist_lms.Contains.find_boundaries_eq {kl : klist_lms} {xs : List Nat} {t : Nat} {start count : UInt32}
    (h : kl.Contains xs t) (hfew : xs.length < 4294967296) (hwrap : start.toNat + count.toNat < 4294967296) :
    find_boundaries kl start count kl.nodes.cells.length kl.head 0 none kl.tail =
      pure (M2_prev_of xs start.toNat, xs[start.toNat + count.toNat]?.or kl.tail) := by
  have hcells := Heap.length_le_of_nodup h.nodup h.live
  rw [List.length_append, List.length_cons] at hcells
  have hfuel : xs.length < kl.nodes.cells.length := by omega
  have hnone : M2_prev_of [] start.toNat = none := by
    rw [M2_prev_of]
    split <;> rfl
  have hfound : find_boundaries kl start count kl.nodes.cells.length kl.head 0 (M2_prev_of [] start.toNat) kl.tail =
      pure (M2_prev_of xs start.toNat, xs[start.toNat + count.toNat]?.or kl.tail) :=
    @find_boundaries_from kl xs [] xs t _ _ start count 0 h rfl h.path hfuel rfl hfew hwrap
  rw [hnone] at hfound
  exact hfound

/-- The buffer to be mutated holds the messages of M2 one after the other. -/
theorem returns_copy_messages {kl : klist_lms} {heap : Heap message_t} {B : List Nat} {M2 : List message_t}
    {it M2_next : Ptr} {fuel : Nat} {in_buf out : List UInt8}
    (h : Returns (copy_messages kl heap M2_next fuel it in_buf) out) (hpath : Chain.Path kl.next it B M2_next)
    (hnot : ∀ x ∈ B, some x ≠ M2_next) (hmessages : B.map (message kl heap) = M2.map some) :
    out = in_buf ++ (M2.map message_t.mdata).flatten := by
  induction B generalizing it in_buf fuel M2 with
  | nil =>
    have hnil : M2 = [] := by simpa using hmessages.symm
    subst hnil
    cases fuel with
    | zero => exact absurd h not_returns_fail
    | succ fuel =>
      rw [copy_messages, if_pos (Chain.path_nil.mp hpath)] at h
      rw [returns_pure h, List.map_nil, List.flatten_nil, List.append_nil]
  | cons x B ih =>
    obtain ⟨rfl, hrest⟩ := hpath
    cases M2 with
    | nil => cases hmessages
    | cons m M2 =>
      rw [List.map_cons, List.map_cons, List.cons.injEq] at hmessages
      obtain ⟨hx, hmessages⟩ := hmessages
      obtain ⟨p, hp, hm⟩ := message_eq_some hx
      obtain ⟨n, hn, _⟩ := Option.bind_eq_some_iff.mp hp
      have hderef : deref_message heap (some p) = pure m := by
        rw [deref_message, Option.bind_some, hm]
      cases fuel with
      | zero => exact absurd h not_returns_fail
      | succ fuel =>
        rw [copy_messages, if_neg (hnot x (List.mem_cons_self ..)), kl_val_eq hn, pure_bind, hp, hderef, pure_bind,
          kl_next_eq hn] at h
        obtain ⟨_, _, h⟩ := returns_bind h
        rw [pure_bind] at h
        rw [ih h hrest (fun y hy => hnot y (List.mem_cons_of_mem _ hy)) hmessages, List.map_cons, List.flatten_cons,
          List.append_assoc]

/-- The last of the first nodes is the one before M2, if there is any. -/
theorem getLast?_take_eq {xs : List Nat} {start : Nat} (h : start ≤ xs.length) :
    (xs.take start).getLast? = M2_prev_of xs start := by
  rw [List.getLast?_take, M2_prev_of]
  split
  · rfl
  · rw [List.getElem?_eq_getElem (show start - 1 < xs.length by omega), Option.some_or]

/-- What `fuzz_one` starts to copy at is where the nodes of M1 lead to. -/
theorem klist_lms.Contains.M2_begin_eq {kl : klist_lms} {A rest : List Nat} {t : Nat} {first it : Ptr}
    (h : kl.Contains (A ++ rest) t) (hpath : Chain.Path kl.next kl.head A first)
    (hit : Returns (M2_begin kl A.getLast?) it) : it = first := by
  cases hlast : A.getLast? with
  | none =>
    rw [hlast] at hit
    rw [List.getLast?_eq_none_iff.mp hlast] at hpath
    exact (returns_pure hit).trans hpath
  | some a =>
    obtain ⟨front, hfront⟩ := List.getLast?_eq_some_iff.mp hlast
    obtain ⟨n, hn⟩ := h.live_node (List.mem_append_left _ (List.mem_of_getLast? hlast))
    rw [hlast, M2_begin, kl_next_eq hn] at hit
    rw [hfront] at hpath
    exact (returns_pure hit).trans (Chain.path_concat.mp hpath).2

/-- A list is made up of what is before M2, M2 itself, and what is behind it. -/
theorem take_drop_append {α : Type} (l : List α) (start count : Nat) :
    l.take start ++ (l.drop start).take count ++ l.drop (start + count) = l := by
  rw [← List.take_add, List.take_append_drop]

/-- The boundaries split the list into M1, M2 and M3. -/
theorem Messages.split_at {st : Messages} {xs : List Nat} {t start count : Nat} {ms : List message_t}
    (h : Lists st.kl_messages st.heap xs t ms) (hstart : start < xs.length) (hcount : 0 < count)
    (hprev : st.M2_prev = M2_prev_of xs start) (hnext : st.M2_next = xs[start + count]?.or st.kl_messages.tail) :
    st.Split (xs.take start) ((xs.drop start).take count) (xs.drop (start + count)) t (ms.take start)
      ((ms.drop start).take count) (ms.drop (start + count)) where
  lists := by
    rw [take_drop_append, take_drop_append]
    exact h
  first := by rw [List.length_take, List.length_take, h.length_eq]
  middle := by rw [List.length_take, List.length_take, List.length_drop, List.length_drop, h.length_eq]
  nonempty := by
    refine List.ne_nil_of_length_pos ?_
    rw [List.length_take, List.length_drop]
    omega
  before := by rw [hprev, getLast?_take_eq (Nat.le_of_lt hstart)]
  behind := by rw [hnext, List.head?_drop]

/-- What `fuzz_one` copies from M2. -/
theorem Messages.Split.copied {st : Messages} {A B C : List Nat} {t fuel : Nat} {M1 M2 M3 : List message_t} {it : Ptr}
    {out : List UInt8} (h : st.Split A B C t M1 M2 M3) (hit : Returns (M2_begin st.kl_messages st.M2_prev) it)
    (hcopy : Returns (copy_messages st.kl_messages st.heap st.M2_next fuel it []) out) :
    out = (M2.map message_t.mdata).flatten := by
  obtain ⟨_, hpathAB, hpathC⟩ := Chain.path_append.mp h.lists.path
  obtain ⟨first, hpathA, hpathB⟩ := Chain.path_append.mp hpathAB
  rw [hpathC.start_eq, ← h.behind] at hpathB
  have hcontains := h.lists.toContains
  rw [List.append_assoc] at hcontains
  rw [h.before] at hit
  rw [hcontains.M2_begin_eq hpathA hit] at hcopy
  have hmessages := h.lists.messages
  rw [List.map_append, List.map_append, List.map_append, List.map_append] at hmessages
  have hfirst := h.first
  have hmiddle := h.middle
  have hAB := (List.append_inj hmessages (by simp [hfirst, hmiddle])).1
  have hB := (List.append_inj hAB (by simp [hfirst])).2
  have hstop := h.lists.toContains
  rw [← List.append_nil (A ++ B ++ C)] at hstop
  obtain ⟨y, hy, _, hout⟩ := hstop.stop
  have hnot : ∀ x ∈ B, some x ≠ st.M2_next := by
    intro x hx heq
    rw [h.behind, hy] at heq
    cases heq
    exact hout hx
  exact returns_copy_messages hcopy hpathB hnot hB

/-- `fuzz_one` splits the list at the regions chosen for M2, and copies them to the
buffer to be mutated. -/
theorem fuzz_one_messages_split {heap : Heap message_t} {file in_buf : List UInt8} {regions : List region_t}
    {region_count : Nat} {start count : UInt32} {st : Messages}
    (h : Returns (fuzz_one_messages heap file regions region_count start count) (st, in_buf))
    (hstart : start.toNat < (regions.take region_count).length) (hcount : 0 < count.toNat)
    (hfew : region_count < 4294967296) (hwrap : start.toNat + count.toNat < 4294967296) :
    ∃ A B C t M1 M2 M3, st.Split A B C t M1 M2 M3 ∧
      M1 ++ M2 ++ M3 = fread_messages (regions.take region_count) file ∧ M1.length = start.toNat ∧
      in_buf = (M2.map message_t.mdata).flatten := by
  obtain ⟨⟨kl, heap'⟩, hbuilt, h⟩ := returns_bind h
  have hregions : ∀ region ∈ regions.take region_count, Allocatable region := returns_construct_from hbuilt
  obtain ⟨kl₁, heap₁, xs, t, heq, hlists⟩ := construct_kl_messages_eq hregions heap file
  rw [heq] at hbuilt
  cases returns_pure hbuilt
  have hlength : xs.length = (regions.take region_count).length :=
    hlists.length_eq.trans (length_fread_messages _ _)
  have htake : (regions.take region_count).length ≤ region_count := List.length_take_le _ _
  dsimp only at h
  rw [hlists.toContains.find_boundaries_eq (by omega) hwrap, pure_bind] at h
  obtain ⟨it, hit, h⟩ := returns_bind h
  obtain ⟨out, hcopy, h⟩ := returns_bind h
  cases returns_pure h
  have hsplit := @Messages.split_at
    ⟨kl, heap', M2_prev_of xs start.toNat, xs[start.toNat + count.toNat]?.or kl.tail⟩ xs t _ _ _ hlists
    (hlength ▸ hstart) hcount rfl rfl
  refine ⟨_, _, _, t, _, _, _, hsplit, take_drop_append _ _ _, ?_, hsplit.copied hit hcopy⟩
  rw [List.length_take, length_fread_messages]
  omega

end aflnet
