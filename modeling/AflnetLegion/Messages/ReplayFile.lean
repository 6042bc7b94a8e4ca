import AflnetLegion.Messages.RoundTrip

open Checked

namespace aflnet

/-- The value of four bytes on a little-endian machine. `aflnet-replay` reads the size of a
packet into an `unsigned int`. -/
def u32_of_bytes : List UInt8 → UInt32
  | [b₀, b₁, b₂, b₃] => UInt32.ofNat (b₀.toNat + 256 * b₁.toNat + 65536 * b₂.toNat + 16777216 * b₃.toNat)
  | _ => 0

/-- A file that is being read: the bytes that are left, and whether a read has met the
end of the file. -/
structure Stream where
  rest : List UInt8
  eof : Bool

/-- `fread` of one item of `size` bytes: whether it was read completely, its bytes, and
the file after that. -/
def Stream.fread (fp : Stream) (size : Nat) : Bool × List UInt8 × Stream :=
  if size = 0 then (false, [], fp)
  else if size ≤ fp.rest.length then (true, fp.rest.take size, { fp with rest := fp.rest.drop size })
  else (false, fp.rest, { rest := [], eof := true })

/-- The loop of `aflnet-replay` that reads and sends the packets. `exchange` tells
whether the packet with the given number was sent and the server's responses were
received. A packet of size 0 has no buffer. -/
def replay_packets (exchange : Nat → Bool) : Nat → Stream → List message_t → F (List message_t)
  | 0, _, _ => fail .endless_loop
  | fuel + 1, fp, packets =>
    if fp.eof then pure packets
    else
      match fp.fread 4 with
      | (false, _, fp) => replay_packets exchange fuel fp packets
      | (true, bytes, fp) => do
        let size := (u32_of_bytes bytes).toNat
        ALLOC_CHECK_SIZE size
        let buf := fread_message size fp.rest
        if exchange packets.length then replay_packets exchange fuel (fp.fread size).2.2 (packets ++ [buf])
        else pure (packets ++ [buf])

/-- The packets of a file. Every round but the last one reads at least four bytes. -/
def aflnet_replay (exchange : Nat → Bool) (file : List UInt8) : F (List message_t) :=
  replay_packets exchange (file.length + 2) { rest := file, eof := false } []

theorem u32_of_bytes_u32_bytes (x : UInt32) : u32_of_bytes (u32_bytes x) = x := by
  have hbyte : ∀ s : UInt32, s.toNat < 32 → (x >>> s).toUInt8.toNat = x.toNat / 2 ^ s.toNat % 256 := by
    intro s hs
    rw [UInt32.toNat_toUInt8, UInt32.toNat_shiftRight, Nat.mod_eq_of_lt hs, Nat.shiftRight_eq_div_pow]
  have hlt : x.toNat < 4294967296 := x.toNat_lt
  rw [u32_bytes, u32_of_bytes, hbyte 8 (by decide), hbyte 16 (by decide), hbyte 24 (by decide), UInt32.toNat_toUInt8]
  refine UInt32.toNat_inj.mp ?_
  rw [UInt32.toNat_ofNat']
  change (x.toNat % 256 + 256 * (x.toNat / 256 % 256) + 65536 * (x.toNat / 65536 % 256) +
    16777216 * (x.toNat / 16777216 % 256)) % 4294967296 = x.toNat
  omega

namespace Stream

variable {rest bytes : List UInt8}

theorem fread_append {size : Nat} (hbytes : bytes.length = size) :
    (Stream.mk (bytes ++ rest) false).fread size = (decide (size ≠ 0), bytes, { rest, eof := false }) := by
  subst hbytes
  rw [fread]
  cases bytes with
  | nil => rfl
  | cons byte bytes =>
    have hpos : (byte :: bytes).length ≠ 0 := Nat.succ_ne_zero _
    have hle : (byte :: bytes).length ≤ (byte :: bytes ++ rest).length := by
      rw [List.length_append]
      exact Nat.le_add_right _ _
    rw [if_neg hpos, if_pos hle, List.take_left, List.drop_left]
    rfl

/-- A read that comes to the end of the file, which keeps what is there. -/
theorem fread_short {size : Nat} (hshort : rest.length < size) :
    (Stream.mk rest false).fread size = (false, rest, { rest := [], eof := true }) := by
  rw [fread, if_neg (by omega), if_neg (Nat.not_le.mpr hshort)]

end Stream

theorem fread_message_eq (m : message_t) (rest : List UInt8) : fread_message m.msize (m.mdata ++ rest) = m := by
  refine message_t.ext_mdata ?_
  rw [mdata_fread_message (by rw [m.sized, List.length_append]; exact Nat.le_add_right _ _), m.sized, List.take_left]

section replay

variable {exchange : Nat → Bool} {fuel : Nat} {packets out : List message_t} {rest : List UInt8}

/-- A round that finds a size. -/
theorem replay_packets_of_size {bytes : List UInt8} (hbytes : bytes.length = 4) :
    replay_packets exchange (fuel + 1) { rest := bytes ++ rest, eof := false } packets =
      ALLOC_CHECK_SIZE (u32_of_bytes bytes).toNat >>= fun _ =>
        if exchange packets.length then
          replay_packets exchange fuel ((Stream.mk rest false).fread (u32_of_bytes bytes).toNat).2.2
            (packets ++ [fread_message (u32_of_bytes bytes).toNat rest])
        else pure (packets ++ [fread_message (u32_of_bytes bytes).toNat rest]) := by
  rw [replay_packets, if_neg Bool.false_ne_true, Stream.fread_append hbytes]
  rfl

/-- Fewer than four bytes are no packet, and end the loop. -/
theorem replay_packets_of_short (hshort : rest.length < 4) :
    replay_packets exchange (fuel + 2) { rest, eof := false } packets = pure packets := by
  rw [replay_packets, if_neg Bool.false_ne_true, Stream.fread_short hshort]
  rfl

/-- A saved packet is read back. -/
theorem replay_packets_of_packet (hexchange : ∀ i, exchange i = true) {m : message_t} (hsize : m.msize ≤ MAX_ALLOC) :
    replay_packets exchange (fuel + 1) { rest := packet true m ++ rest, eof := false } packets =
      replay_packets exchange fuel { rest, eof := false } (packets ++ [m]) := by
  have hlimit : MAX_ALLOC = 1073741824 := rfl
  have hvalue : (UInt32.ofNat m.msize).toNat = m.msize := by
    rw [UInt32.toNat_ofNat']
    omega
  rw [packet, if_pos rfl, List.append_assoc, replay_packets_of_size rfl, u32_of_bytes_u32_bytes, hvalue,
    ALLOC_CHECK_SIZE_eq hsize, pure_bind, if_pos (hexchange _), fread_message_eq, Stream.fread_append m.sized.symm]

/-- All saved packets are read back, as long as the server answers. -/
theorem replay_packets_of_packets (hexchange : ∀ i, exchange i = true) {ms : List message_t}
    (hsizes : ∀ m ∈ ms, m.msize ≤ MAX_ALLOC) :
    replay_packets exchange (fuel + ms.length) { rest := ms.flatMap (packet true) ++ rest, eof := false } packets =
      replay_packets exchange fuel { rest, eof := false } (packets ++ ms) := by
  induction ms generalizing packets with
  | nil => rw [List.append_nil, List.flatMap_nil, List.nil_append, List.length_nil, Nat.add_zero]
  | cons m ms ih =>
    rw [List.flatMap_cons, List.append_assoc, List.length_cons, ← Nat.add_assoc,
      replay_packets_of_packet hexchange (hsizes m (List.mem_cons_self ..)),
      ih fun k hk => hsizes k (List.mem_cons_of_mem _ hk), List.append_assoc, List.singleton_append]

/-- No packet is taken back. -/
theorem returns_replay_packets {fp : Stream} (h : Returns (replay_packets exchange fuel fp packets) out) :
    packets.length ≤ out.length := by
  induction fuel generalizing fp packets with
  | zero => exact absurd h not_returns_fail
  | succ fuel ih =>
    rw [replay_packets] at h
    split at h
    · exact Nat.le_of_eq (by rw [returns_pure h])
    · split at h
      · exact ih h
      · obtain ⟨_, _, h⟩ := returns_bind h
        split at h
        · have hle := ih h
          rw [List.length_append] at hle
          omega
        · rw [returns_pure h, List.length_append]
          exact Nat.le_add_right _ _

/-- Four bytes or more are taken for one more packet. -/
theorem returns_replay_packets_of_long (hlong : 4 ≤ rest.length)
    (h : Returns (replay_packets exchange fuel { rest, eof := false } packets) out) : packets.length < out.length := by
  have hsplit : rest = rest.take 4 ++ rest.drop 4 := (List.take_append_drop 4 rest).symm
  have hfour : (rest.take 4).length = 4 := by
    rw [List.length_take]
    omega
  cases fuel with
  | zero => exact absurd h not_returns_fail
  | succ fuel =>
    rw [hsplit, replay_packets_of_size hfour] at h
    obtain ⟨_, _, h⟩ := returns_bind h
    split at h
    · have hle := returns_replay_packets h
      rw [List.length_append, List.length_singleton] at hle
      exact hle
    · rw [returns_pure h, List.length_append]
      exact Nat.lt_succ_self _

end replay

theorem length_packet (m : message_t) : (packet true m).length = 4 + m.msize := by
  rw [packet, if_pos rfl, List.length_append, m.sized]
  rfl

theorem length_packets (ms : List message_t) :
    (ms.flatMap (packet true)).length = (ms.map fun m => 4 + m.msize).sum := by
  induction ms with
  | nil => rfl
  | cons m ms ih => rw [List.flatMap_cons, List.length_append, ih, List.map_cons, List.sum_cons, length_packet]

/-- A file has more bytes than packets, which bounds the rounds of the loop. -/
theorem length_le_packets (ms : List message_t) : ms.length ≤ (ms.flatMap (packet true)).length := by
  induction ms with
  | nil => exact Nat.le_refl 0
  | cons m ms ih =>
    rw [List.flatMap_cons, List.length_append, List.length_cons, length_packet]
    omega

theorem msize_le_packets {ms : List message_t} {m : message_t} (hm : m ∈ ms) :
    m.msize ≤ (ms.flatMap (packet true)).length := by
  obtain ⟨before, after, rfl⟩ := List.append_of_mem hm
  rw [List.flatMap_append, List.flatMap_cons, List.length_append, List.length_append, length_packet]
  omega

/-- A file that was written for replaying holds what was saved if and only if its previous
content was less than four bytes longer. The file is not truncated, and what is left of it is
read as long as it has a size field. -/
theorem Lists.replay_file_iff {kl : klist_lms} {heap : Heap message_t} {xs : List Nat} {t : Nat} {ms : List message_t}
    (h : Lists kl heap xs t ms) {exchange : Nat → Bool} (hexchange : ∀ i, exchange i = true) {max_count len : Nat}
    {previous file : List UInt8}
    (hsave : Returns (save_kl_messages_to_file kl heap previous true max_count) (len, file)) :
    aflnet_replay exchange file = pure (ms.take max_count) ↔
      previous.length < ((ms.take max_count).map fun m => 4 + m.msize).sum + 4 := by
  have hmax := h.returns_save hsave
  rw [h.save_eq _ _ _ hmax] at hsave
  obtain ⟨_, rfl⟩ := Prod.mk.inj (returns_pure hsave)
  have hsizes : ∀ m ∈ ms.take max_count, m.msize ≤ MAX_ALLOC := fun m hm => Nat.le_trans (msize_le_packets hm) hmax
  rw [← length_packets]
  generalize hleft : previous.drop ((ms.take max_count).flatMap (packet true)).length = left
  have hlength : left.length = previous.length - ((ms.take max_count).flatMap (packet true)).length := by
    rw [← hleft, List.length_drop]
  have hfew := length_le_packets (ms.take max_count)
  rw [aflnet_replay, write_over, hleft, List.length_append]
  obtain ⟨spare, hspare⟩ := Nat.le.dest hfew
  rw [show ((ms.take max_count).flatMap (packet true)).length + left.length + 2 =
    (spare + left.length + 2) + (ms.take max_count).length by omega, replay_packets_of_packets hexchange hsizes,
    List.nil_append]
  constructor
  · intro heq
    by_contra hlong
    have hmore := returns_replay_packets_of_long (show 4 ≤ left.length by omega) (returns_of_eq_pure heq)
    exact absurd hmore (Nat.lt_irrefl _)
  · intro hshort
    exact replay_packets_of_short (by omega)

/-- The previous content ends one byte behind the new packet. -/
theorem replay_after_one_byte_more : ∃ kl heap len file,
    Returns (save_kl_messages_to_file kl heap [0, 0, 0, 0, 0, 0] true 1) (len, file) ∧
      aflnet_replay (fun _ => true) file = pure [⟨[65], 1, rfl⟩] := by
  obtain ⟨kl, heap, xs, t, hlists⟩ := exists_lists [⟨[65], 1, rfl⟩]
  have hsave := hlists.save_eq true 1 [0, 0, 0, 0, 0, 0] (by decide)
  have hreturns : Returns (save_kl_messages_to_file kl heap [0, 0, 0, 0, 0, 0] true 1) _ := returns_of_eq_pure hsave
  exact ⟨kl, heap, _, _, hreturns, (hlists.replay_file_iff (fun _ => rfl) hreturns).mpr (by decide)⟩

/-- A packet of the previous content is left behind the new one. -/
theorem stale_packet_is_replayed : ∃ kl heap xs t, Lists kl heap xs t [⟨[65], 1, rfl⟩] ∧ ∃ len file,
    Returns (save_kl_messages_to_file kl heap [1, 0, 0, 0, 66, 1, 0, 0, 0, 67] true 1) (len, file) ∧
      aflnet_replay (fun _ => true) file = pure [⟨[65], 1, rfl⟩, ⟨[67], 1, rfl⟩] := by
  obtain ⟨kl, heap, xs, t, hlists⟩ := exists_lists [⟨[65], 1, rfl⟩]
  have hsave := hlists.save_eq true 1 [1, 0, 0, 0, 66, 1, 0, 0, 0, 67] (by decide)
  exact ⟨kl, heap, xs, t, hlists, _, _, returns_of_eq_pure hsave, rfl⟩

end aflnet
