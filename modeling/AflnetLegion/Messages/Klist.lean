import AflnetLegion.Lib.Checked
import AflnetLegion.Lib.Heap
import AflnetLegion.Lib.Path

open Checked

namespace aflnet

/-- Why the fuzzer stops: it used a pointer that is NULL or no longer valid, it read
outside a buffer, or it reported a fatal error. `endless_loop` stands for a walk
over more nodes than there are. -/
inductive Failure where
  | invalid_pointer
  | out_of_bounds
  | bad_alloc_request
  | no_memory_region
  | no_region
  | negative_end_byte
  | endless_loop
  deriving DecidableEq, Repr

/-- Operations on the message list. They have no soft assertions. -/
abbrev F := Comp Failure Empty

/-- An address, or NULL. -/
abbrev Ptr := Option Nat

/-- A message and its buffer, which are allocated and freed together. The size is that of the
buffer, as for every message that the fuzzer makes. -/
structure message_t where
  mdata : List UInt8
  msize : Nat
  sized : msize = mdata.length
  deriving DecidableEq, Repr

/-- A node of the list. `data` points to a message, and is unset in the sentinel and in nodes of
the pool. The sentinel is a node like the others, which the tail of the list points to. -/
structure kl1_lms where
  data : Ptr
  next : Ptr
  deriving DecidableEq, Repr

/-- The list and its pool. The node `tail` is a sentinel, which holds no message;
`mp` holds the nodes that can be used again, the one freed last in front. -/
structure klist_lms where
  nodes : Heap kl1_lms
  head : Ptr
  tail : Ptr
  mp : List Nat
  size : Nat
  deriving DecidableEq, Repr

namespace klist_lms

/-- The link of a node, NULL for one that is not in use. -/
def next (kl : klist_lms) (x : Nat) : Ptr := (kl.nodes.get? x).bind kl1_lms.next

/-- What a node holds, NULL for one that is not in use. -/
def data (kl : klist_lms) (x : Nat) : Ptr := (kl.nodes.get? x).bind kl1_lms.data

end klist_lms

/-- Following a pointer to a node of the list. A node in the pool can be read as well, as it is
not freed. -/
def deref_node (kl : klist_lms) (it : Ptr) : F (Nat × kl1_lms) :=
  match it with
  | none => fail .invalid_pointer
  | some x =>
    match kl.nodes.get? x with
    | none => fail .invalid_pointer
    | some n => pure (x, n)

/-- `kl_val(iter)`. The value of the sentinel is unset, so what it points to cannot be read. -/
def kl_val (kl : klist_lms) (it : Ptr) : F Ptr := do
  let n ← deref_node kl it
  pure n.2.data

/-- `kl_next(iter)`, which follows a pointer that can be NULL. -/
def kl_next (kl : klist_lms) (it : Ptr) : F Ptr := do
  let n ← deref_node kl it
  pure n.2.next

/-- An assignment to the link of a node. -/
def set_next (kl : klist_lms) (it : Ptr) (next : Ptr) : F klist_lms := do
  let n ← deref_node kl it
  pure { kl with nodes := kl.nodes.put n.1 { n.2 with next } }

/-- An assignment to what a node holds. -/
def set_val (kl : klist_lms) (it : Ptr) (data : Ptr) : F klist_lms := do
  let n ← deref_node kl it
  pure { kl with nodes := kl.nodes.put n.1 { n.2 with data } }

/-- A node from the pool as it was left there, or a new one. A node from the pool still has its
old value and link, which `kl_pushp` overwrites. -/
def kmp_alloc (kl : klist_lms) : klist_lms × Nat :=
  match kl.mp with
  | [] =>
    let fresh := kl.nodes.alloc { data := none, next := none }
    ({ kl with nodes := fresh.1 }, fresh.2)
  | p :: mp => ({ kl with mp }, p)

/-- A node is given back to the pool, where the next push will find it. -/
def kmp_free (kl : klist_lms) (p : Nat) : klist_lms := { kl with mp := p :: kl.mp }

/-- `kl_init`: an empty list, whose head is its sentinel. The pool is empty too. -/
def kl_init : klist_lms :=
  let fresh := (Heap.mk []).alloc ({ data := none, next := none } : kl1_lms)
  { nodes := fresh.1, head := some fresh.2, tail := some fresh.2, mp := [], size := 0 }

/-- The old sentinel becomes the last node, and a further node the new sentinel. The pointer to
the value of the old one is what the macro returns. -/
def kl_pushp (kl : klist_lms) : F (klist_lms × Ptr) := do
  let fresh := kmp_alloc kl
  let q := fresh.1.tail
  let kl ← set_next fresh.1 (some fresh.2) none
  let kl ← set_next kl kl.tail (some fresh.2)
  pure ({ kl with tail := some fresh.2, size := kl.size + 1 }, q)

/-- `*kl_pushp(kl) = m`: the value is written to the node that was the sentinel. -/
def kl_push (kl : klist_lms) (m : Ptr) : F klist_lms := do
  let pushed ← kl_pushp kl
  set_val pushed.1 pushed.2 m

/-- The walk of `get_last_message` from `it` on, at most `fuel` nodes long. It looks one link
ahead, so it needs a list with a message. -/
def last_message_from (kl : klist_lms) : Nat → Ptr → F Ptr
  | 0, _ => fail .endless_loop
  | fuel + 1, it => do
    let next ← kl_next kl it
    if next = kl.tail then pure it else last_message_from kl fuel next

/-- `get_last_message`, the last node before the sentinel. It walks over no more nodes than were
ever allocated. -/
def get_last_message (kl : klist_lms) : F Ptr := last_message_from kl kl.nodes.cells.length kl.head

namespace klist_lms

variable {kl : klist_lms} {xs : List Nat} {x t : Nat} {n : kl1_lms}

theorem next_eq (hx : kl.nodes.get? x = some n) : kl.next x = n.next := by rw [next, hx, Option.bind_some]

theorem data_eq (hx : kl.nodes.get? x = some n) : kl.data x = n.data := by rw [data, hx, Option.bind_some]

end klist_lms

section accessors

variable {kl : klist_lms} {x : Nat} {n : kl1_lms}

theorem deref_node_eq (hx : kl.nodes.get? x = some n) : deref_node kl (some x) = pure (x, n) := by
  rw [deref_node]
  simp only [hx]

theorem kl_next_eq (hx : kl.nodes.get? x = some n) : kl_next kl (some x) = pure (kl.next x) := by
  rw [kl_next, deref_node_eq hx, pure_bind, klist_lms.next_eq hx]

theorem kl_val_eq (hx : kl.nodes.get? x = some n) : kl_val kl (some x) = pure (kl.data x) := by
  rw [kl_val, deref_node_eq hx, pure_bind, klist_lms.data_eq hx]

theorem set_next_eq (hx : kl.nodes.get? x = some n) (next : Ptr) :
    set_next kl (some x) next = pure { kl with nodes := kl.nodes.put x { n with next } } := by
  rw [set_next, deref_node_eq hx, pure_bind]

theorem set_val_eq (hx : kl.nodes.get? x = some n) (data : Ptr) :
    set_val kl (some x) data = pure { kl with nodes := kl.nodes.put x { n with data } } := by
  rw [set_val, deref_node_eq hx, pure_bind]

end accessors

/-- The list consists of the nodes `xs` and the sentinel `t`; they and the nodes of
the pool are all different. -/
structure klist_lms.Contains (kl : klist_lms) (xs : List Nat) (t : Nat) : Prop where
  path : Chain.Path kl.next kl.head xs kl.tail
  tail : kl.tail = some t
  live : ∀ x ∈ xs ++ t :: kl.mp, ∃ n, kl.nodes.get? x = some n
  nodup : (xs ++ t :: kl.mp).Nodup
  size : kl.size = xs.length

theorem contains_init : kl_init.Contains [] 0 where
  path := rfl
  tail := rfl
  live := by
    intro x hx
    rw [List.mem_singleton.mp hx]
    exact ⟨_, rfl⟩
  nodup := List.nodup_singleton 0
  size := rfl

namespace klist_lms.Contains

variable {kl : klist_lms} {xs : List Nat} {x t : Nat}

theorem live_node (h : kl.Contains xs t) (hx : x ∈ xs) : ∃ n, kl.nodes.get? x = some n :=
  h.live x (List.mem_append_left _ hx)

theorem live_tail (h : kl.Contains xs t) : ∃ n, kl.nodes.get? t = some n :=
  h.live t (List.mem_append_right _ (List.mem_cons_self ..))

theorem tail_not_mem (h : kl.Contains xs t) : t ∉ xs := by
  intro hmem
  exact (List.nodup_append.mp h.nodup).2.2 t hmem t (List.mem_cons_self ..) rfl

theorem nodup_nodes (h : kl.Contains xs t) : xs.Nodup := (List.nodup_append.mp h.nodup).1

/-- What `kmp_alloc` takes is neither in the list nor left in the pool. -/
theorem kmp_alloc_spec (h : kl.Contains xs t) : ∃ nodes p n, kmp_alloc kl = ({ kl with nodes, mp := kl.mp.drop 1 }, p) ∧
    nodes.get? p = some n ∧ (∀ y m, kl.nodes.get? y = some m → nodes.get? y = some m) ∧
    (xs ++ t :: p :: kl.mp.drop 1).Nodup := by
  cases hmp : kl.mp with
  | nil =>
    refine ⟨_, _, _, by rw [kmp_alloc, hmp]; rfl, Heap.get?_alloc_self _ _, ?_, ?_⟩
    · intro y m hy
      exact Heap.get?_alloc_of_some _ hy
    · have hnodup := h.nodup
      rw [hmp] at hnodup
      have hnew : (kl.nodes.alloc { data := none, next := none }).2 ∉ xs ++ [t] := by
        intro hmem
        obtain ⟨m, hm⟩ := h.live _ (by rw [hmp]; exact hmem)
        rw [Heap.get?_alloc_eq_none] at hm
        cases hm
      have hall : (xs ++ [t] ++ [(kl.nodes.alloc { data := none, next := none }).2]).Nodup := by
        refine List.nodup_append.mpr ⟨hnodup, List.nodup_singleton _, ?_⟩
        intro a ha b hb hab
        rw [List.mem_singleton.mp hb] at hab
        rw [hab] at ha
        exact hnew ha
      rw [List.append_assoc] at hall
      exact hall
  | cons p mp =>
    obtain ⟨n, hn⟩ := h.live p (by rw [hmp]; simp)
    have hnodup := h.nodup
    rw [hmp] at hnodup
    refine ⟨kl.nodes, p, n, by rw [kmp_alloc, hmp]; rfl, hn, fun y m hy => hy, hnodup⟩

/-- A push turns the sentinel into the last node of the list. -/
theorem push (h : kl.Contains xs t) (m : Ptr) : ∃ kl' p, kl_push kl m = pure kl' ∧ kl'.Contains (xs ++ [t]) p ∧
    kl'.head = kl.head ∧ kl'.mp = kl.mp.drop 1 ∧ kl'.data t = m ∧ ∀ x ∈ xs, kl'.data x = kl.data x := by
  obtain ⟨nodes, p, n, halloc, hp, hkeep, hnodup⟩ := h.kmp_alloc_spec
  obtain ⟨nt, hnt⟩ := h.live_tail
  have ht := hkeep t nt hnt
  obtain ⟨hnxs, hnrest, hdisj⟩ := List.nodup_append.mp hnodup
  have htp : t ≠ p := fun heq => (List.nodup_cons.mp hnrest).1 (by rw [heq]; exact List.mem_cons_self ..)
  have hxt : ∀ x ∈ xs, t ≠ x := fun x hx heq => hdisj x hx t (List.mem_cons_self ..) heq.symm
  have hxp : ∀ x ∈ xs, p ≠ x := fun x hx heq => hdisj x hx p (List.mem_cons_of_mem _ (List.mem_cons_self ..)) heq.symm
  -- the three assignments, to the new sentinel and to the node before it
  have ht₁ : (nodes.put p { n with next := none }).get? t = some nt := (Heap.get?_put_of_ne (Ne.symm htp)).trans ht
  have ht₂ := Heap.get?_put_self (b := { nt with next := some p }) ht₁
  have ht₃ := Heap.get?_put_self (b := { data := m, next := some p }) ht₂
  have hp₃ : (((nodes.put p { n with next := none }).put t { nt with next := some p }).put t
      { data := m, next := some p }).get? p = some { n with next := none } := by
    rw [Heap.get?_put_of_ne htp, Heap.get?_put_of_ne htp, Heap.get?_put_self hp]
  have hother : ∀ x, t ≠ x → p ≠ x → ∀ k, kl.nodes.get? x = some k →
      (((nodes.put p { n with next := none }).put t { nt with next := some p }).put t
        { data := m, next := some p }).get? x = some k := by
    intro x hxt hxp k hk
    rw [Heap.get?_put_of_ne hxt, Heap.get?_put_of_ne hxt, Heap.get?_put_of_ne hxp]
    exact hkeep x k hk
  refine ⟨{ kl with
    nodes := ((nodes.put p { n with next := none }).put t { nt with next := some p }).put t { data := m, next := some p }
    tail := some p
    mp := kl.mp.drop 1
    size := kl.size + 1 }, p, ?_, ?_, rfl, rfl, (klist_lms.data_eq ht₃).trans rfl, ?_⟩
  · rw [kl_push, kl_pushp, halloc]
    dsimp only
    rw [h.tail, set_next_eq hp, pure_bind]
    dsimp only
    rw [set_next_eq ht₁, pure_bind, pure_bind]
    dsimp only
    rw [set_val_eq ht₂]
  · have hsame : ∀ x ∈ xs, ∀ k, kl.nodes.get? x = some k → _ := fun x hx => hother x (hxt x hx) (hxp x hx)
    constructor
    · refine Chain.path_concat.mpr ⟨?_, (klist_lms.next_eq ht₃).trans rfl⟩
      rw [← h.tail]
      refine h.path.congr fun x hx => ?_
      obtain ⟨k, hk⟩ := h.live_node hx
      rw [klist_lms.next_eq hk]
      exact klist_lms.next_eq (hsame x hx k hk)
    · rfl
    · intro x hx
      rw [List.append_assoc] at hx
      rcases List.mem_append.mp hx with hx | hx
      · obtain ⟨k, hk⟩ := h.live_node hx
        exact ⟨k, hsame x hx k hk⟩
      · rcases List.mem_cons.mp hx with rfl | hx
        · exact ⟨_, ht₃⟩
        · rcases List.mem_cons.mp hx with rfl | hx
          · exact ⟨_, hp₃⟩
          · obtain ⟨hnt', hnp⟩ := List.nodup_cons.mp hnrest
            obtain ⟨k, hk⟩ := h.live x
              (List.mem_append_right _ (List.mem_cons_of_mem _ (List.mem_of_mem_drop hx)))
            refine ⟨k, hother x ?_ ?_ k hk⟩
            · rintro rfl
              exact hnt' (List.mem_cons_of_mem _ hx)
            · rintro rfl
              exact (List.nodup_cons.mp hnp).1 hx
    · rw [List.append_assoc]
      exact hnodup
    · rw [List.length_append, h.size]
      rfl
  · intro x hx
    obtain ⟨k, hk⟩ := h.live_node hx
    rw [klist_lms.data_eq hk]
    exact klist_lms.data_eq (hother x (hxt x hx) (hxp x hx) k hk)

/-- From any node of the list the walk gets to the last one. -/
theorem last_message_from_eq {ys : List Nat} {it : Ptr} {fuel : Nat} (h : kl.Contains xs t)
    (hpath : Chain.Path kl.next it (ys ++ [x]) kl.tail) (hsub : ∀ y ∈ ys ++ [x], y ∈ xs) (hfuel : ys.length < fuel) :
    last_message_from kl fuel it = pure (some x) := by
  induction ys generalizing it fuel with
  | nil =>
    obtain ⟨rfl, hlast⟩ := hpath
    obtain ⟨n, hn⟩ := h.live_node (hsub x (by simp))
    cases fuel with
    | zero => cases hfuel
    | succ fuel => rw [last_message_from, kl_next_eq hn, pure_bind, if_pos (Chain.path_nil.mp hlast)]
  | cons y ys ih =>
    obtain ⟨rfl, hrest⟩ := hpath
    obtain ⟨n, hn⟩ := h.live_node (hsub y (by simp))
    have hnext : kl.next y ≠ kl.tail := by
      rw [hrest.start_eq, h.tail]
      cases ys with
      | nil =>
        intro heq
        exact h.tail_not_mem (Option.some.inj heq ▸ hsub x (by simp))
      | cons z ys =>
        intro heq
        exact h.tail_not_mem (Option.some.inj heq ▸ hsub z (by simp))
    cases fuel with
    | zero => cases hfuel
    | succ fuel =>
      rw [last_message_from, kl_next_eq hn, pure_bind, if_neg hnext]
      exact ih hrest (fun z hz => hsub z (List.mem_cons_of_mem _ hz)) (Nat.lt_of_succ_lt_succ hfuel)

/-- `get_last_message` finds the last node. -/
theorem get_last_message_eq (h : kl.Contains (xs ++ [x]) t) : get_last_message kl = pure (some x) := by
  have hfew := Heap.length_le_of_nodup h.nodup_nodes fun y hy => h.live_node hy
  rw [List.length_append] at hfew
  exact h.last_message_from_eq h.path (fun y hy => hy) hfew

end klist_lms.Contains

end aflnet
