import Mathlib.Data.List.Induction
import AflnetLegion.Data
import AflnetLegion.Lib.Tiling
import AflnetLegion.Messages.Klist

open Checked

namespace aflnet

/-- The length of what lies between the start of one region and the end of another,
as a `u32`. -/
def region_len (first last : region_t) : Nat := ((last.end_byte - first.start_byte + 1) % 4294967296).toNat

/-- The limit of `alloc-inl.h` on one allocation, from which on `ck_alloc` aborts. -/
def MAX_ALLOC : Nat := 0x40000000

/-- Whether an allocation of `size` bytes succeeds. `ck_alloc` returns NULL if there
are none, which its callers here report as a fatal error. -/
def ck_alloc (size : Nat) : F Unit :=
  if size = 0 then fail .no_memory_region
  else if MAX_ALLOC < size then fail .bad_alloc_request
  else pure ()

/-- What `fread` leaves in a zeroed buffer of `len` bytes when `rest` is left of the file. A
file that is too short is not an error. -/
def fread_message (len : Nat) (rest : List UInt8) : message_t :=
  { mdata := rest.take len ++ List.replicate (len - rest.length) 0, msize := len, sized := by simp; omega }

/-- A message is allocated and pushed to the list. The pointer to it is the value of the new
last node. -/
def push_message (kl : klist_lms) (heap : Heap message_t) (m : message_t) : F (klist_lms × Heap message_t) := do
  let fresh := heap.alloc m
  let kl ← kl_push kl (some fresh.2)
  pure (kl, fresh.1)

/-- The loop of `construct_kl_messages`. The position in the file moves with every
read, and is not set to the start of the region. -/
def construct_from (kl : klist_lms) (heap : Heap message_t) (rest : List UInt8) :
    List region_t → F (klist_lms × Heap message_t)
  | [] => pure (kl, heap)
  | region :: regions => do
    let len := region_len region region
    ck_alloc len
    let pushed ← push_message kl heap (fread_message len rest)
    construct_from pushed.1 pushed.2 (rest.drop len) regions

/-- The whole function, which starts with a new list. The messages are as long as the regions
say, but are read from the file one behind the other, wherever the regions start. -/
def construct_kl_messages (heap : Heap message_t) (file : List UInt8) (regions : List region_t) (region_count : Nat) :
    F (klist_lms × Heap message_t) :=
  construct_from kl_init heap file (regions.take region_count)

/-- The messages that `construct_kl_messages` reads, one behind the other from the start of the
file. -/
def fread_messages : List region_t → List UInt8 → List message_t
  | [], _ => []
  | region :: regions, rest =>
    fread_message (region_len region region) rest :: fread_messages regions (rest.drop (region_len region region))

/-- The message of a node. -/
def message (kl : klist_lms) (heap : Heap message_t) (x : Nat) : Option message_t := (kl.data x).bind heap.get?

/-- The list consists of the nodes `xs`, which hold the messages `ms`, each its own. No two
nodes hold the same address, so freeing one message leaves the others. -/
structure Lists (kl : klist_lms) (heap : Heap message_t) (xs : List Nat) (t : Nat) (ms : List message_t) : Prop
    extends kl.Contains xs t where
  messages : xs.map (message kl heap) = ms.map some
  distinct : (xs.map kl.data).Nodup

/-- The message of a node is that at the address which the node holds. -/
theorem message_eq_some {kl : klist_lms} {heap : Heap message_t} {x : Nat} {m : message_t}
    (h : message kl heap x = some m) : ∃ p, kl.data x = some p ∧ heap.get? p = some m := Option.bind_eq_some_iff.mp h

theorem lists_init (heap : Heap message_t) : Lists kl_init heap [] 0 [] where
  toContains := contains_init
  messages := rfl
  distinct := List.nodup_nil

namespace Lists

variable {kl : klist_lms} {heap : Heap message_t} {xs : List Nat} {t : Nat} {ms : List message_t}

theorem length_eq (h : Lists kl heap xs t ms) : xs.length = ms.length := by
  simpa using congrArg List.length h.messages

/-- Each node of the list holds the address of a message in use. -/
theorem exists_message (h : Lists kl heap xs t ms) {x : Nat} (hx : x ∈ xs) :
    ∃ p m, kl.data x = some p ∧ heap.get? p = some m := by
  have hmem : message kl heap x ∈ ms.map some := by
    rw [← h.messages]
    exact List.mem_map_of_mem hx
  obtain ⟨m, _, hm⟩ := List.mem_map.mp hmem
  obtain ⟨p, hp, hget⟩ := message_eq_some hm.symm
  exact ⟨p, m, hp, hget⟩

/-- A list has only one content. -/
theorem unique (h : Lists kl heap xs t ms) {ys : List Nat} {u : Nat} {ms' : List message_t}
    (h' : Lists kl heap ys u ms') : ms = ms' := by
  have htu : t = u := Option.some.inj (h.tail.symm.trans h'.tail)
  subst htu
  have hpath := h.path
  have hpath' := h'.path
  rw [h.tail] at hpath hpath'
  have hnodes : xs = ys := hpath.unique hpath' h.tail_not_mem h'.tail_not_mem
  subst hnodes
  have heq : ms.map some = ms'.map some := h.messages.symm.trans h'.messages
  exact List.map_injective_iff.mpr (fun _ _ => Option.some.inj) heq

/-- A pushed message comes last; the messages before it stay where they are. -/
theorem push_message (h : Lists kl heap xs t ms) (m : message_t) : ∃ kl' p,
    aflnet.push_message kl heap m = pure (kl', (heap.alloc m).1) ∧ Lists kl' (heap.alloc m).1 (xs ++ [t]) p (ms ++ [m]) ∧
      kl'.head = kl.head ∧ kl'.mp = kl.mp.drop 1 ∧ ∀ x ∈ xs, kl'.data x = kl.data x := by
  obtain ⟨kl', p, hpush, hcontains, hhead, hmp, hdata, hsame⟩ := h.toContains.push (some (heap.alloc m).2)
  have hold : xs.map kl'.data = xs.map kl.data := List.map_congr_left hsame
  refine ⟨kl', p, by rw [aflnet.push_message, hpush, pure_bind], ⟨hcontains, ?_, ?_⟩, hhead, hmp, hsame⟩
  · rw [List.map_append, List.map_append, ← h.messages]
    congr 1
    · refine List.map_congr_left fun x hx => ?_
      obtain ⟨q, k, hq, hk⟩ := h.exists_message hx
      rw [message, message, hsame x hx, hq, Option.bind_some, Option.bind_some, Heap.get?_alloc_of_some m hk, hk]
    · rw [List.map_singleton, List.map_singleton, message, hdata, Option.bind_some, Heap.get?_alloc_self]
  · rw [List.map_append, hold, List.map_singleton, hdata]
    refine List.nodup_append.mpr ⟨h.distinct, List.nodup_singleton _, ?_⟩
    intro a ha b hb hab
    obtain ⟨x, hx, rfl⟩ := List.mem_map.mp ha
    obtain ⟨q, k, hq, hk⟩ := h.exists_message hx
    rw [List.mem_singleton.mp hb, hq] at hab
    cases hab
    rw [Heap.get?_alloc_eq_none] at hk
    cases hk

end Lists

/-- Any messages can be put in a list. -/
theorem exists_lists (ms : List message_t) : ∃ kl heap xs t, Lists kl heap xs t ms := by
  induction ms using List.reverseRecOn with
  | nil => exact ⟨kl_init, ⟨[]⟩, [], 0, lists_init _⟩
  | append_singleton ms m ih =>
    obtain ⟨kl, heap, xs, t, h⟩ := ih
    obtain ⟨kl', p, _, hlists, _⟩ := h.push_message m
    exact ⟨kl', _, _, p, hlists⟩

/-- `ck_alloc` succeeds for the region. -/
def Allocatable (region : region_t) : Prop :=
  0 < region_len region region ∧ region_len region region ≤ MAX_ALLOC

instance (region : region_t) : Decidable (Allocatable region) := inferInstanceAs (Decidable (_ ∧ _))

theorem ck_alloc_eq {size : Nat} (hpos : 0 < size) (hmax : size ≤ MAX_ALLOC) : ck_alloc size = pure () := by
  rw [ck_alloc, if_neg (Nat.ne_of_gt hpos), if_neg (Nat.not_lt.mpr hmax)]

theorem returns_ck_alloc {size : Nat} {u : Unit} (h : Returns (ck_alloc size) u) : 0 < size ∧ size ≤ MAX_ALLOC := by
  rw [ck_alloc] at h
  split at h
  · exact absurd h not_returns_fail
  · rename_i hzero
    split at h
    · exact absurd h not_returns_fail
    · rename_i hmax
      exact ⟨Nat.pos_of_ne_zero hzero, Nat.not_lt.mp hmax⟩

/-- The loop appends the messages it reads to the list. -/
theorem Lists.construct_from {regions : List region_t} (hregions : ∀ region ∈ regions, Allocatable region)
    {kl : klist_lms} {heap : Heap message_t} {xs : List Nat} {t : Nat} {ms : List message_t} (h : Lists kl heap xs t ms)
    (rest : List UInt8) : ∃ kl' heap' ys p, aflnet.construct_from kl heap rest regions = pure (kl', heap') ∧
      Lists kl' heap' (xs ++ ys) p (ms ++ fread_messages regions rest) := by
  induction regions generalizing kl heap xs t ms rest with
  | nil =>
    refine ⟨kl, heap, [], t, rfl, ?_⟩
    rw [fread_messages, List.append_nil, List.append_nil]
    exact h
  | cons region regions ih =>
    obtain ⟨hpos, hmax⟩ := hregions region (List.mem_cons_self ..)
    obtain ⟨kl₁, p₁, hpush, hlists, _⟩ := h.push_message (fread_message (region_len region region) rest)
    obtain ⟨kl', heap', ys, p, heq, hfinal⟩ := ih (fun r hr => hregions r (List.mem_cons_of_mem _ hr)) hlists
      (rest.drop (region_len region region))
    refine ⟨kl', heap', t :: ys, p, ?_, ?_⟩
    · rw [aflnet.construct_from, ck_alloc_eq hpos hmax, pure_bind, hpush, pure_bind, heq]
    · rw [List.append_assoc, List.append_assoc] at hfinal
      exact hfinal

/-- The list holds one message for each region in use. -/
theorem construct_kl_messages_eq {regions : List region_t} {region_count : Nat}
    (hregions : ∀ region ∈ regions.take region_count, Allocatable region) (heap : Heap message_t) (file : List UInt8) :
    ∃ kl heap' xs t, construct_kl_messages heap file regions region_count = pure (kl, heap') ∧
      Lists kl heap' xs t (fread_messages (regions.take region_count) file) := by
  obtain ⟨kl, heap', xs, t, heq, hlists⟩ := (lists_init heap).construct_from hregions file
  exact ⟨kl, heap', xs, t, heq, hlists⟩

/-- `construct_kl_messages` returns only if it can allocate every message. -/
theorem returns_construct_from {regions : List region_t} {kl : klist_lms} {heap : Heap message_t} {rest : List UInt8}
    {r : klist_lms × Heap message_t} (h : Returns (construct_from kl heap rest regions) r) :
    ∀ region ∈ regions, Allocatable region := by
  induction regions generalizing kl heap rest with
  | nil => exact fun region hregion => by cases hregion
  | cons region regions ih =>
    obtain ⟨_, halloc, h⟩ := returns_bind h
    obtain ⟨pushed, _, h⟩ := returns_bind h
    intro other hother
    rcases List.mem_cons.mp hother with rfl | hmem
    · exact returns_ck_alloc halloc
    · exact ih h other hmem

theorem length_fread_messages (regions : List region_t) (rest : List UInt8) :
    (fread_messages regions rest).length = regions.length := by
  induction regions generalizing rest with
  | nil => rfl
  | cons region regions ih => rw [fread_messages, List.length_cons, List.length_cons, ih]

/-- As long as the file lasts, the bytes of a message are the next ones of it. -/
theorem mdata_fread_message {len : Nat} {rest : List UInt8} (h : len ≤ rest.length) :
    (fread_message len rest).mdata = rest.take len := by
  change rest.take len ++ List.replicate (len - rest.length) 0 = rest.take len
  rw [Nat.sub_eq_zero_of_le h, List.replicate_zero, List.append_nil]

/-- Position and length of a region. -/
def region_t.piece (region : region_t) : Nat × Nat :=
  (region.start_byte.toNat, (region.end_byte + 1 - region.start_byte).toNat)

/-- Regions that follow one another through a buffer, none of them empty or too
large to be allocated. -/
structure Partitions (regions : List region_t) (size : Nat) : Prop where
  tiles : Tiling.Tiles 0 (regions.map region_t.piece) size
  proper : ∀ region ∈ regions, 0 ≤ region.start_byte ∧ region.start_byte ≤ region.end_byte ∧
    region.end_byte + 1 - region.start_byte ≤ MAX_ALLOC

/-- Within the limit for allocations the length does not overflow. -/
theorem region_len_eq {first last : region_t} (hle : first.start_byte ≤ last.end_byte)
    (hmax : last.end_byte + 1 - first.start_byte ≤ MAX_ALLOC) :
    region_len first last = (last.end_byte + 1 - first.start_byte).toNat := by
  have hlimit : (MAX_ALLOC : Int) = 1073741824 := rfl
  rw [hlimit] at hmax
  rw [region_len, Int.emod_eq_of_lt (by omega) (by omega)]
  congr 1
  omega

namespace Partitions

variable {regions : List region_t} {size : Nat} {region : region_t}

/-- The length of a region is the number of its bytes, without overflow. -/
theorem len_eq (h : Partitions regions size) (hregion : region ∈ regions) :
    region_len region region = region.piece.2 := by
  obtain ⟨_, hle, hmax⟩ := h.proper region hregion
  exact region_len_eq hle hmax

theorem len_pos (h : Partitions regions size) (hregion : region ∈ regions) : 0 < region.piece.2 := by
  obtain ⟨_, hle, _⟩ := h.proper region hregion
  change 0 < (region.end_byte + 1 - region.start_byte).toNat
  omega

/-- Each of the regions can be allocated, as the whole buffer was. -/
theorem allocatable (h : Partitions regions size) (hregion : region ∈ regions) : Allocatable region := by
  obtain ⟨_, hle, hmax⟩ := h.proper region hregion
  have hpos := h.len_pos hregion
  rw [Allocatable, h.len_eq hregion]
  refine ⟨hpos, ?_⟩
  change (region.end_byte + 1 - region.start_byte).toNat ≤ MAX_ALLOC
  omega

end Partitions

/-- As long as the file lasts, the messages are its consecutive pieces. -/
theorem fread_messages_eq {regions : List region_t} {rest : List UInt8}
    (h : (regions.map fun region => region_len region region).sum ≤ rest.length) :
    (fread_messages regions rest).map message_t.mdata =
      Tiling.reads (regions.map fun region => region_len region region) rest := by
  induction regions generalizing rest with
  | nil => rfl
  | cons region regions ih =>
    rw [List.map_cons, List.sum_cons] at h
    rw [fread_messages, List.map_cons, List.map_cons, Tiling.reads]
    congr 1
    · exact mdata_fread_message (by omega)
    · refine ih ?_
      rw [List.length_drop]
      omega

end aflnet
