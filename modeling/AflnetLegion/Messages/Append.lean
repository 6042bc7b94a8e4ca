import AflnetLegion.Messages.Mutate

open Checked

namespace aflnet

/-- What is said about the parts of the list M1 ++ M2 ++ M3: they consist of the
nodes `A`, `B` and `C`, and the boundaries of M2 are where they should be. -/
structure Messages.Split (st : Messages) (A B C : List Nat) (t : Nat) (M1 M2 M3 : List message_t) : Prop where
  lists : Lists st.kl_messages st.heap (A ++ B ++ C) t (M1 ++ M2 ++ M3)
  first : A.length = M1.length
  middle : B.length = M2.length
  nonempty : B ≠ []
  before : st.M2_prev = A.getLast?
  behind : st.M2_next = C.head?.or st.kl_messages.tail

/-- The state while the nodes `D` are appended: they come last in the list, and what is behind
M2 is the first node of M3, of `D`, or the sentinel. -/
structure Messages.Grown (st : Messages) (A B C D : List Nat) (t : Nat) (M1 M2 M3 N : List message_t) : Prop where
  lists : Lists st.kl_messages st.heap (A ++ B ++ C ++ D) t (M1 ++ M2 ++ M3 ++ N)
  behind : st.M2_next = C.head?.or st.kl_messages.tail

/-- Behind every node is the next one or the sentinel. -/
theorem klist_lms.Contains.next_eq {kl : klist_lms} {front rest : List Nat} {x t : Nat}
    (h : kl.Contains (front ++ x :: rest) t) : kl.next x = rest.head?.or kl.tail := by
  obtain ⟨m, _, hx⟩ := Chain.path_append.mp h.path
  exact hx.2.start_eq

namespace Messages.Grown

variable {st : Messages} {A B C D : List Nat} {t : Nat} {M1 M2 M3 N : List message_t}

/-- A push of a new message. -/
theorem push (h : st.Grown A B C D t M1 M2 M3 N) (m : message_t) : ∃ kl p M2_next,
    push_message st.kl_messages st.heap m = pure (kl, (st.heap.alloc m).1) ∧
      follow_tail kl st.M2_next = pure M2_next ∧
      Grown { st with kl_messages := kl, heap := (st.heap.alloc m).1, M2_next } A B C (D ++ [t]) p M1 M2 M3 (N ++ [m]) ∧
      kl.head = st.kl_messages.head ∧ kl.mp = st.kl_messages.mp.drop 1 ∧
      ∀ x ∈ A ++ B ++ C ++ D, kl.data x = st.kl_messages.data x := by
  obtain ⟨kl, p, hpush, hlists, hhead, hmp, hdata⟩ := h.lists.push_message m
  have htail : kl.tail = some p := hlists.tail
  have hlists' : Lists kl (st.heap.alloc m).1 (A ++ B ++ C ++ (D ++ [t])) p (M1 ++ M2 ++ M3 ++ (N ++ [m])) := by
    rw [← List.append_assoc, ← List.append_assoc]
    exact hlists
  have hbehind := h.behind
  rw [h.lists.tail] at hbehind
  have hfollow : follow_tail kl st.M2_next = pure (C.head?.or kl.tail) := by
    cases C with
    | nil =>
      rw [List.head?_nil, Option.none_or] at hbehind ⊢
      obtain ⟨n, hn⟩ := hlists.live_node (show t ∈ _ by simp)
      have hnext : kl.next t = kl.tail := (Chain.path_concat.mp hlists.path).2
      rw [follow_tail, hbehind, kl_next_eq hn, pure_bind, if_pos hnext]
    | cons c C =>
      rw [List.head?_cons, Option.some_or] at hbehind ⊢
      obtain ⟨n, hn⟩ := hlists.live_node (show c ∈ _ by simp)
      have hnext : kl.next c ≠ kl.tail := by
        have hsplit : A ++ B ++ c :: C ++ D ++ [t] = (A ++ B) ++ c :: (C ++ D ++ [t]) := by simp
        have hcontains := hlists.toContains
        rw [hsplit] at hcontains
        obtain ⟨y, hy⟩ : ∃ y, (C ++ D ++ [t]).head? = some y := by
          rw [← Option.isSome_iff_exists, List.isSome_head?]
          simp
        have hmem : y ∈ (A ++ B) ++ c :: (C ++ D ++ [t]) :=
          List.mem_append_right _ (List.mem_cons_of_mem _ (List.mem_of_head? hy))
        rw [hcontains.next_eq, hy, Option.some_or, htail]
        intro heq
        cases heq
        exact hcontains.tail_not_mem hmem
      rw [follow_tail, hbehind, kl_next_eq hn, pure_bind, if_neg hnext]
  exact ⟨kl, p, _, hpush, hfollow, ⟨hlists', rfl⟩, hhead, hmp, hdata⟩

end Messages.Grown

/-- What appending the nodes `D` to the list `xs` leaves as it was: the boundaries, the messages
of the old nodes, and the pool but for what was taken from it. -/
structure Messages.Extends (st st' : Messages) (xs D : List Nat) : Prop where
  before : st'.M2_prev = st.M2_prev
  head : st'.kl_messages.head = st.kl_messages.head
  mp : st'.kl_messages.mp = st.kl_messages.mp.drop D.length
  data : ∀ x ∈ xs, st'.kl_messages.data x = st.kl_messages.data x
  heap : ∀ (p : Nat) (m : message_t), st.heap.get? p = some m → st'.heap.get? p = some m

namespace Messages.Extends

variable {st st₁ st₂ : Messages} {xs D E : List Nat}

theorem refl (st : Messages) (xs : List Nat) : st.Extends st xs [] := ⟨rfl, rfl, rfl, fun _ _ => rfl, fun _ _ hm => hm⟩

theorem trans (h : st.Extends st₁ xs D) (h' : st₁.Extends st₂ (xs ++ D) E) : st.Extends st₂ xs (D ++ E) where
  before := h'.before.trans h.before
  head := h'.head.trans h.head
  mp := by rw [h'.mp, h.mp, List.drop_drop, List.length_append]
  data := fun x hx => (h'.data x (List.mem_append_left _ hx)).trans (h.data x hx)
  heap := fun p m hm => h'.heap p m (h.heap p m hm)

end Messages.Extends

section regions

variable {region : region_t} {rest : List region_t} {a b : Nat}

/-- The next message starts at `a`, and either is the next region or goes to the end. -/
theorem message_len_eq (htiles : Tiling.Tiles a ((region :: rest).map region_t.piece) b)
    (hproper : ∀ r ∈ region :: rest, 0 ≤ r.start_byte ∧ r.start_byte ≤ r.end_byte) (hmax : b ≤ MAX_ALLOC)
    (max_seed_region_count i : Nat) : message_len max_seed_region_count i region rest =
      if i = max_seed_region_count then b - a else region.piece.2 := by
  obtain ⟨hstart, hle⟩ := hproper region (List.mem_cons_self ..)
  have hfirst : region.start_byte.toNat = a := htiles.1
  have hbounds := htiles.bounds (List.mem_map_of_mem (List.mem_cons_self ..))
  have hregion : region.start_byte.toNat + (region.end_byte + 1 - region.start_byte).toNat ≤ b := hbounds.2
  have hlast_mem := List.getLast_mem (List.cons_ne_nil region rest)
  obtain ⟨hlast_start, hlast_le⟩ := hproper _ hlast_mem
  have hstop : ((region :: rest).getLast (List.cons_ne_nil region rest)).start_byte.toNat +
      (((region :: rest).getLast (List.cons_ne_nil region rest)).end_byte + 1 -
        ((region :: rest).getLast (List.cons_ne_nil region rest)).start_byte).toNat = b := by
    rw [← List.dropLast_append_getLast (List.cons_ne_nil region rest), List.map_append] at htiles
    exact htiles.last_stop
  have hlimit : (MAX_ALLOC : Int) = 1073741824 := rfl
  have hlimit' : MAX_ALLOC = 1073741824 := rfl
  rw [message_len]
  split
  · rw [region_len_eq (by omega) (by omega)]
    omega
  · exact region_len_eq hle (by omega)

theorem copy_region_eq {out_buf : List UInt8} {start_byte : Int} {len : Nat} (hstart : 0 ≤ start_byte)
    (hlen : start_byte.toNat + len ≤ out_buf.length) :
    ∃ m, copy_region out_buf start_byte len = pure m ∧ m.mdata = Tiling.slice out_buf start_byte.toNat len := by
  rw [copy_region, dif_pos ⟨hstart, hlen⟩]
  exact ⟨_, rfl, rfl⟩

end regions

namespace Messages.Grown

variable {st : Messages} {A B C D : List Nat} {t : Nat} {M1 M2 M3 N : List message_t}

/-- The loop of `common_fuzz_stuff` appends messages that make up the rest of the
buffer. -/
theorem push_regions {out_buf : List UInt8} {rest : List region_t} {a b : Nat}
    (h : st.Grown A B C D t M1 M2 M3 N) (htiles : Tiling.Tiles a (rest.map region_t.piece) b)
    (hproper : ∀ r ∈ rest, 0 ≤ r.start_byte ∧ r.start_byte ≤ r.end_byte) (hbuf : b ≤ out_buf.length)
    (hmax : b ≤ MAX_ALLOC) (max_seed_region_count i : Nat) : ∃ st' E t' N',
      aflnet.push_regions out_buf max_seed_region_count i rest st = pure st' ∧
      st'.Grown A B C (D ++ E) t' M1 M2 M3 (N ++ N') ∧ st.Extends st' (A ++ B ++ C ++ D) E ∧ E.length = N'.length ∧
      (rest ≠ [] → E ≠ []) ∧ (N'.map message_t.mdata).flatten = Tiling.slice out_buf a (b - a) := by
  induction rest generalizing st D t N a i with
  | nil =>
    refine ⟨st, [], t, [], rfl, ?_, Extends.refl st _, rfl, fun hne => absurd rfl hne, ?_⟩
    · rw [List.append_nil, List.append_nil]
      exact h
    · rw [show a = b from htiles, Nat.sub_self]
      rfl
  | cons region rest ih =>
    obtain ⟨hstart, hle⟩ := hproper region (List.mem_cons_self ..)
    have hfirst : region.start_byte.toNat = a := htiles.1
    have hbounds := htiles.bounds (List.mem_map_of_mem (List.mem_cons_self ..))
    have hregion : region.start_byte.toNat + region.piece.2 ≤ b := hbounds.2
    have hpos : 0 < region.piece.2 := by
      change 0 < (region.end_byte + 1 - region.start_byte).toNat
      omega
    have hlen := message_len_eq htiles hproper hmax max_seed_region_count i
    have hlen_pos : 0 < message_len max_seed_region_count i region rest := by
      rw [hlen]
      split <;> omega
    have hlen_le : region.start_byte.toNat + message_len max_seed_region_count i region rest ≤ b := by
      rw [hlen]
      split <;> omega
    obtain ⟨m, hcopy, hmdata⟩ := copy_region_eq hstart (Nat.le_trans hlen_le hbuf)
    obtain ⟨kl, p, M2_next, hpush, hfollow, hgrown, hhead, hmp, hdata⟩ := h.push m
    have hextends : st.Extends { st with kl_messages := kl, heap := (st.heap.alloc m).1, M2_next } (A ++ B ++ C ++ D) [t] :=
      ⟨rfl, hhead, hmp, hdata, fun _ _ hm => Heap.get?_alloc_of_some _ hm⟩
    rw [aflnet.push_regions, ck_alloc_eq hlen_pos (by omega), pure_bind, hcopy, pure_bind, hpush, pure_bind, hfollow,
      pure_bind]
    by_cases hi : i = max_seed_region_count
    · rw [if_pos hi]
      rw [if_pos hi] at hlen
      refine ⟨_, [t], p, [m], rfl, hgrown, hextends, rfl, fun _ => List.cons_ne_nil _ _, ?_⟩
      rw [List.map_singleton, List.flatten_singleton, hmdata, hlen, hfirst]
    · rw [if_neg hi]
      rw [if_neg hi] at hlen
      obtain ⟨st', E, t', N', hrest, hgrown', hextends', hcount, _, hflatten⟩ := ih hgrown htiles.2
        (fun r hr => hproper r (List.mem_cons_of_mem _ hr)) (i + 1)
      refine ⟨st', t :: E, t', m :: N', hrest, ?_, ?_, ?_, fun _ => List.cons_ne_nil _ _, ?_⟩
      · rw [List.append_assoc, List.append_assoc] at hgrown'
        exact hgrown'
      · rw [← List.append_assoc] at hextends'
        exact hextends.trans hextends'
      · rw [List.length_cons, List.length_cons, hcount]
      · have hmore : (N'.map message_t.mdata).flatten =
            Tiling.slice out_buf (a + region.piece.2) (b - (a + region.piece.2)) := hflatten
        rw [List.map_cons, List.flatten_cons, hmore, hmdata, hlen, hfirst, Tiling.slice_append]
        congr 1
        omega

end Messages.Grown

end aflnet
