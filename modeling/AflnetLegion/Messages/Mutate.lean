import AflnetLegion.Messages.Construct

open Checked

namespace aflnet

/-- The messages of the seed being fuzzed and the boundaries of M2. `M2_prev` is the
last node of M1, or NULL; `M2_next` the first node of M3, or the end of the list. -/
structure Messages where
  kl_messages : klist_lms
  heap : Heap message_t
  M2_prev : Ptr
  M2_next : Ptr
  deriving DecidableEq, Repr

/-- Following a pointer to a message, which fails for one that was freed. -/
def deref_message (heap : Heap message_t) (m : Ptr) : F message_t :=
  match m.bind heap.get? with
  | none => fail .invalid_pointer
  | some m => pure m

/-- The loop of `fuzz_one` that looks for the boundaries of M2. Nodes are counted by a `u32`,
and M2_prev stays NULL when M2 starts the list. -/
def find_boundaries (kl : klist_lms) (M2_start_region_ID M2_region_count : UInt32) :
    Nat → Ptr → UInt32 → Ptr → Ptr → F (Ptr × Ptr)
  | 0, _, _, _, _ => fail .endless_loop
  | fuel + 1, it, count, M2_prev, M2_next =>
    if it = kl.tail then pure (M2_prev, M2_next)
    else do
      let next ← kl_next kl it
      find_boundaries kl M2_start_region_ID M2_region_count fuel next (count + 1)
        (if count = M2_start_region_ID - 1 then it else M2_prev)
        (if count = M2_start_region_ID + M2_region_count then it else M2_next)

/-- The first node of M2. Without an M1 it is the head of the list, as there is no link that
leads to it. -/
def M2_begin (kl : klist_lms) (M2_prev : Ptr) : F Ptr :=
  match M2_prev with
  | none => pure kl.head
  | some x => kl_next kl (some x)

/-- The loop of `fuzz_one` that appends the messages of M2 to `in_buf`, which is extended for
each of them. -/
def copy_messages (kl : klist_lms) (heap : Heap message_t) (M2_next : Ptr) : Nat → Ptr → List UInt8 → F (List UInt8)
  | 0, _, _ => fail .endless_loop
  | fuel + 1, it, in_buf =>
    if it = M2_next then pure in_buf
    else do
      let val ← kl_val kl it
      let m ← deref_message heap val
      ck_alloc (in_buf.length + m.msize)
      let next ← kl_next kl it
      copy_messages kl heap M2_next fuel next (in_buf ++ m.mdata)

/-- What `fuzz_one` does before it mutates: it builds the message list, finds the
boundaries of M2 and copies M2 to the buffer to be mutated. -/
def fuzz_one_messages (heap : Heap message_t) (file : List UInt8) (regions : List region_t) (region_count : Nat)
    (M2_start_region_ID M2_region_count : UInt32) : F (Messages × List UInt8) := do
  let constructed ← construct_kl_messages heap file regions region_count
  let kl := constructed.1
  let bounds ← find_boundaries kl M2_start_region_ID M2_region_count kl.nodes.cells.length kl.head 0 none kl.tail
  let it ← M2_begin kl bounds.1
  let in_buf ← copy_messages kl constructed.2 bounds.2 kl.nodes.cells.length it []
  pure ({ kl_messages := kl, heap := constructed.2, M2_prev := bounds.1, M2_next := bounds.2 }, in_buf)

/-- The `memcpy` of a region of the mutated buffer to a new message. Both ends of the region
have to be in the buffer. -/
def copy_region (out_buf : List UInt8) (start_byte : Int) (len : Nat) : F message_t :=
  if h : 0 ≤ start_byte ∧ start_byte.toNat + len ≤ out_buf.length then
    pure { mdata := Tiling.slice out_buf start_byte.toNat len, msize := len, sized := (Tiling.length_slice h.2).symm }
  else fail .out_of_bounds

/-- The assignment to `M2_next` after a push: it follows the sentinel if M3 is empty. M2_next is
then the old sentinel, which has become a message. -/
def follow_tail (kl : klist_lms) (M2_next : Ptr) : F Ptr := do
  let next ← kl_next kl M2_next
  pure (if next = kl.tail then kl.tail else M2_next)

/-- The length of the next message: the one with the index `max_seed_region_count`
takes all that is left. -/
def message_len (max_seed_region_count i : Nat) (region : region_t) (rest : List region_t) : Nat :=
  if i = max_seed_region_count then region_len region ((region :: rest).getLast (List.cons_ne_nil region rest))
  else region_len region region

/-- The loop of `common_fuzz_stuff` over the regions from index `i` on. The new messages are
appended to the list behind M3 first, and the one for the last allowed region takes the rest of
the buffer. -/
def push_regions (out_buf : List UInt8) (max_seed_region_count : Nat) : Nat → List region_t → Messages → F Messages
  | _, [], st => pure st
  | i, region :: rest, st => do
    ck_alloc (message_len max_seed_region_count i region rest)
    let m ← copy_region out_buf region.start_byte (message_len max_seed_region_count i region rest)
    let pushed ← push_message st.kl_messages st.heap m
    let M2_next ← follow_tail pushed.1 st.M2_next
    if i = max_seed_region_count then pure { st with kl_messages := pushed.1, heap := pushed.2, M2_next }
    else
      push_regions out_buf max_seed_region_count (i + 1) rest
        { st with kl_messages := pushed.1, heap := pushed.2, M2_next }

/-- Put the new nodes, which follow `prev_last_message` up to `cur_last_message`, in
the place of M2. The first node of the old M2 is returned. -/
def replace_M2 (kl : klist_lms) (M2_prev M2_next prev_last_message cur_last_message : Ptr) : F (klist_lms × Ptr) :=
  match M2_prev with
  | none => do
    let first ← kl_next kl prev_last_message
    let linked ← set_next { kl with head := first } cur_last_message M2_next
    let linked ← set_next linked prev_last_message kl.tail
    pure (linked, kl.head)
  | some x => do
    let old_M2_start ← kl_next kl (some x)
    let first ← kl_next kl prev_last_message
    let linked ← set_next kl (some x) first
    let linked ← set_next linked cur_last_message M2_next
    let linked ← set_next linked prev_last_message kl.tail
    pure (linked, old_M2_start)

/-- `ck_free`, which stops if the message is not in use, so that nothing is freed twice. -/
def ck_free (heap : Heap message_t) (m : Ptr) : F (Heap message_t) := do
  let _ ← deref_message heap m
  pure (heap.free (m.getD 0))

/-- The node of a message that was freed goes to the pool, and the list counts one less. -/
def release_node (kl : klist_lms) (x : Nat) : klist_lms := { kmp_free kl x with size := kl.size - 1 }

/-- The loop that frees the previous M2. Its nodes go back to the pool and its messages are
freed, up to M2_next. -/
def free_M2 (M2_next : Ptr) : Nat → Ptr → Ptr → klist_lms → Heap message_t → F (klist_lms × Heap message_t)
  | 0, _, _, _, _ => fail .endless_loop
  | fuel + 1, cur_it, next_it, kl, heap => do
    let cur ← deref_node kl cur_it
    let heap ← ck_free heap cur.2.data
    let next ← kl_next (release_node kl cur.1) next_it
    if next_it = M2_next then pure (release_node kl cur.1, heap)
    else free_M2 M2_next fuel next_it next (release_node kl cur.1) heap

/-- The part of `common_fuzz_stuff` that replaces M2 by the regions of `out_buf`: they are
appended, linked between M1 and M3, and the previous M2 is freed. -/
def update_kl_messages (extract_requests : List UInt8 → List region_t) (max_seed_region_count : Nat)
    (out_buf : List UInt8) (st : Messages) : F Messages :=
  if extract_requests out_buf = [] then fail .no_region
  else do
    let prev_last_message ← get_last_message st.kl_messages
    let st ← push_regions out_buf max_seed_region_count 0 (extract_requests out_buf) st
    let cur_last_message ← get_last_message st.kl_messages
    let replaced ← replace_M2 st.kl_messages st.M2_prev st.M2_next prev_last_message cur_last_message
    let next ← kl_next replaced.1 replaced.2
    let freed ← free_M2 st.M2_next replaced.1.nodes.cells.length replaced.2 next replaced.1 st.heap
    pure { st with kl_messages := freed.1, heap := freed.2 }

/-- A call of `common_fuzz_stuff`, with the global settings it depends on: the post handler, the
extractor of the protocol, and the limit on the number of regions of a seed. -/
structure Stuff where
  out_buf : List UInt8
  post_handler : Option (List UInt8 → List UInt8)
  extract_requests : List UInt8 → List region_t
  max_seed_region_count : Nat

/-- The buffer that is sent: what the post handler makes of it, if there is one. -/
def Stuff.handled (stuff : Stuff) : List UInt8 :=
  match stuff.post_handler with
  | none => stuff.out_buf
  | some handler => handler stuff.out_buf

/-- `common_fuzz_stuff` as far as it concerns the messages. When the post handler
returns nothing, it returns at once. -/
def common_fuzz_stuff (stuff : Stuff) (st : Messages) : F Messages :=
  if stuff.post_handler.isSome = true ∧ stuff.handled = [] then pure st
  else update_kl_messages stuff.extract_requests stuff.max_seed_region_count stuff.handled st

/-- Calls of `common_fuzz_stuff` one after the other, each on what the last one has left. -/
def fuzz_all : List Stuff → Messages → F Messages
  | [], st => pure st
  | stuff :: rest, st => do
    let st ← common_fuzz_stuff stuff st
    fuzz_all rest st

end aflnet
