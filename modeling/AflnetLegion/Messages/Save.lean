import AflnetLegion.Messages.Mutate
import AflnetLegion.Messages.Regions

open Checked

namespace aflnet

/-- The limit for allocations: a larger one aborts the program. -/
def ALLOC_CHECK_SIZE (size : Nat) : F Unit := if MAX_ALLOC < size then fail .bad_alloc_request else pure ()

/-- Whether an array can be extended to `size` bytes. What is added is overwritten at
once by the callers here. -/
def ck_realloc (size : Nat) : F Unit := ALLOC_CHECK_SIZE size

/-- A loop over the messages from the node `it` on, at most `left` of them. Saving and
converting have the same loop, which ends at the sentinel. -/
def for_messages {β : Type} (kl : klist_lms) (heap : Heap message_t) (body : β → message_t → F β) :
    Nat → Ptr → β → F β
  | 0, _, acc => pure acc
  | left + 1, it, acc =>
    if it = kl.tail then pure acc
    else do
      let val ← kl_val kl it
      let m ← deref_message heap val
      let acc ← body acc m
      let next ← kl_next kl it
      for_messages kl heap body left next acc

/-- Append one message to `mem`, after its size if the file is for replaying. The size is cut to
32 bits. -/
def save_message (replay_enabled : Bool) (mem : List UInt8) (m : message_t) : F (List UInt8) :=
  if replay_enabled then do
    ck_realloc (4 + mem.length + m.msize)
    pure (mem ++ u32_bytes (UInt32.ofNat m.msize) ++ m.mdata)
  else do
    ck_realloc (mem.length + m.msize)
    pure (mem ++ m.mdata)

/-- `write` at the start of a file that was opened without truncating it. What the file had
behind it stays. -/
def write_over (file mem : List UInt8) : List UInt8 := mem ++ file.drop mem.length

/-- The number of bytes written, and the file that had the content `file` before. -/
def save_kl_messages_to_file (kl_messages : klist_lms) (heap : Heap message_t) (file : List UInt8) (replay_enabled : Bool)
    (max_count : Nat) : F (Nat × List UInt8) := do
  let mem ← for_messages kl_messages heap (save_message replay_enabled) max_count kl_messages.head []
  pure (mem.length, write_over file mem)

/-- `sizeof(region_t)` on a machine with pointers of eight bytes. -/
def sizeof_region_t : Nat := 32

/-- A value stored in an `s32`. From 2^31 on it is negative. -/
def to_s32 (value : Int) : Int := value.bmod 4294967296

/-- Add the region of a message to the regions and the start of the next one. An assertion fails
if the end is negative, which it is for more than 2 GiB of messages. -/
def convert_message (acc : List region_t × Int) (m : message_t) : F (List region_t × Int) := do
  ck_realloc ((acc.1.length + 1) * sizeof_region_t)
  let cur_end := to_s32 (acc.2 + m.msize - 1)
  if cur_end < 0 then fail .negative_end_byte
  else pure (acc.1 ++ [.fresh acc.2 cur_end], cur_end + 1)

/-- The regions and their number. They are consecutive and as long as the messages, and have no
annotations yet. -/
def convert_kl_messages_to_regions (kl_messages : klist_lms) (heap : Heap message_t) (max_count : Nat) :
    F (List region_t × Nat) := do
  let converted ← for_messages kl_messages heap convert_message max_count kl_messages.head ([], 0)
  pure (converted.1, converted.1.length)

theorem ALLOC_CHECK_SIZE_eq {size : Nat} (h : size ≤ MAX_ALLOC) : ALLOC_CHECK_SIZE size = pure () := by
  rw [ALLOC_CHECK_SIZE, if_neg (Nat.not_lt.mpr h)]

theorem returns_ALLOC_CHECK_SIZE {size : Nat} {u : Unit} (h : Returns (ALLOC_CHECK_SIZE size) u) : size ≤ MAX_ALLOC := by
  rw [ALLOC_CHECK_SIZE] at h
  split at h
  · exact absurd h not_returns_fail
  · rename_i hmax
    exact Nat.not_lt.mp hmax

/-- What a loop does with the messages of the nodes it visits, whatever that is. -/
theorem klist_lms.Contains.for_messages_eq {β : Type} {kl : klist_lms} {heap : Heap message_t} {xs ys : List Nat}
    {t : Nat} {ms : List message_t} {it : Ptr} (h : kl.Contains xs t) (body : β → message_t → F β) (left : Nat) (acc : β)
    (hpath : Chain.Path kl.next it ys kl.tail) (hsub : ∀ y ∈ ys, y ∈ xs)
    (hmessages : ys.map (message kl heap) = ms.map some) :
    for_messages kl heap body left it acc = (ms.take left).foldlM body acc := by
  induction left generalizing ys ms it acc with
  | zero => rfl
  | succ left ih =>
    cases ys with
    | nil =>
      have hnil : ms = [] := by simpa using hmessages.symm
      rw [hnil, for_messages, if_pos (Chain.path_nil.mp hpath)]
      rfl
    | cons x ys =>
      obtain ⟨rfl, hrest⟩ := hpath
      have hx := hsub x (List.mem_cons_self ..)
      have hnot : (some x : Ptr) ≠ kl.tail := by
        rw [h.tail]
        intro heq
        cases heq
        exact h.tail_not_mem hx
      cases ms with
      | nil => cases hmessages
      | cons m ms =>
        rw [List.map_cons, List.map_cons, List.cons.injEq] at hmessages
        obtain ⟨p, hp, hm⟩ := message_eq_some hmessages.1
        obtain ⟨n, hn⟩ := h.live_node hx
        have hderef : deref_message heap (some p) = pure m := by rw [deref_message, Option.bind_some, hm]
        rw [for_messages, if_neg hnot, kl_val_eq hn, pure_bind, hp, hderef, pure_bind, kl_next_eq hn, List.take_succ_cons,
          List.foldlM_cons]
        congr 1
        funext acc
        rw [pure_bind]
        exact ih acc hrest (fun y hy => hsub y (List.mem_cons_of_mem _ hy)) hmessages.2

/-- From the head of the list on, such a loop folds over the first messages. -/
theorem Lists.for_messages_eq {β : Type} {kl : klist_lms} {heap : Heap message_t} {xs : List Nat} {t : Nat}
    {ms : List message_t} (h : Lists kl heap xs t ms) (body : β → message_t → F β) (left : Nat) (acc : β) :
    for_messages kl heap body left kl.head acc = (ms.take left).foldlM body acc :=
  h.toContains.for_messages_eq body left acc h.path (fun _ hy => hy) h.messages

/-- What is saved for one message. -/
def packet (replay_enabled : Bool) (m : message_t) : List UInt8 :=
  if replay_enabled then u32_bytes (UInt32.ofNat m.msize) ++ m.mdata else m.mdata

theorem save_message_eq (replay_enabled : Bool) (mem : List UInt8) (m : message_t) :
    save_message replay_enabled mem m =
      ck_realloc (mem ++ packet replay_enabled m).length >>= fun _ => pure (mem ++ packet replay_enabled m) := by
  cases replay_enabled with
  | false =>
    rw [save_message, packet, if_neg Bool.false_ne_true, if_neg Bool.false_ne_true, List.length_append, m.sized]
  | true =>
    have hlen : 4 + mem.length + m.msize = (mem ++ (u32_bytes (UInt32.ofNat m.msize) ++ m.mdata)).length := by
      rw [List.length_append, List.length_append, ← m.sized]
      change _ = mem.length + (4 + m.msize)
      omega
    rw [save_message, packet, if_pos rfl, if_pos rfl, hlen, List.append_assoc]

section save

variable {replay_enabled : Bool} {ms : List message_t} {mem : List UInt8}

/-- The loop appends the packets one after the other, if all of them fit. -/
theorem save_messages_eq (h : (mem ++ ms.flatMap (packet replay_enabled)).length ≤ MAX_ALLOC) :
    ms.foldlM (save_message replay_enabled) mem = pure (mem ++ ms.flatMap (packet replay_enabled)) := by
  induction ms generalizing mem with
  | nil =>
    rw [List.flatMap_nil, List.append_nil]
    rfl
  | cons m ms ih =>
    rw [List.flatMap_cons, ← List.append_assoc] at h ⊢
    have hfirst : (mem ++ packet replay_enabled m).length ≤ MAX_ALLOC := by
      rw [List.length_append] at h
      omega
    rw [List.foldlM_cons, save_message_eq, ck_realloc, ALLOC_CHECK_SIZE_eq hfirst, pure_bind, pure_bind, ih h]

/-- The loop returns only if everything fits into one allocation. -/
theorem returns_save_messages {out : List UInt8} (hmem : mem.length ≤ MAX_ALLOC)
    (h : Returns (ms.foldlM (save_message replay_enabled) mem) out) :
    out = mem ++ ms.flatMap (packet replay_enabled) ∧ out.length ≤ MAX_ALLOC := by
  induction ms generalizing mem with
  | nil =>
    rw [List.foldlM_nil] at h
    rw [returns_pure h, List.flatMap_nil, List.append_nil]
    exact ⟨rfl, hmem⟩
  | cons m ms ih =>
    rw [List.foldlM_cons, save_message_eq] at h
    obtain ⟨saved, hsave, h⟩ := returns_bind h
    obtain ⟨_, hcheck, hsave⟩ := returns_bind hsave
    rw [returns_pure hsave] at h
    rw [List.flatMap_cons, ← List.append_assoc]
    exact ih (returns_ALLOC_CHECK_SIZE hcheck) h

variable {kl : klist_lms} {heap : Heap message_t} {xs : List Nat} {t : Nat}

/-- What is written is the packets of the messages, over what the file held. -/
theorem Lists.save_eq (hlists : Lists kl heap xs t ms) (replay_enabled : Bool) (max_count : Nat) (file : List UInt8)
    (h : ((ms.take max_count).flatMap (packet replay_enabled)).length ≤ MAX_ALLOC) :
    save_kl_messages_to_file kl heap file replay_enabled max_count =
      pure (((ms.take max_count).flatMap (packet replay_enabled)).length,
        write_over file ((ms.take max_count).flatMap (packet replay_enabled))) := by
  rw [save_kl_messages_to_file, hlists.for_messages_eq, save_messages_eq h, pure_bind, List.nil_append]

/-- The function returns only if all that it writes fits into one allocation. -/
theorem Lists.returns_save (hlists : Lists kl heap xs t ms) {max_count : Nat} {file : List UInt8} {r : Nat × List UInt8}
    (h : Returns (save_kl_messages_to_file kl heap file replay_enabled max_count) r) :
    ((ms.take max_count).flatMap (packet replay_enabled)).length ≤ MAX_ALLOC := by
  rw [save_kl_messages_to_file, hlists.for_messages_eq] at h
  obtain ⟨mem, hmem, _⟩ := returns_bind h
  obtain ⟨heq, hmax⟩ := returns_save_messages (Nat.zero_le _) hmem
  rw [heq, List.nil_append] at hmax
  exact hmax

end save

end aflnet
