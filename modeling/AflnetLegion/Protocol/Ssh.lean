import AflnetLegion.Lib.Lines
import AflnetLegion.Protocol.Framed

open Lines PrefixCode

namespace aflnet

/-- `"SSH-"`, which starts an identification. -/
def ssh_ident : List UInt8 := [0x53, 0x53, 0x48, 0x2D]

/-- What is behind the first 6 bytes of a packet: the rest of the payload, and a MAC of 8 bytes
after the key exchange. The sum is an unsigned int. -/
def bytes_to_skip (mem : Nat → UInt8) : UInt32 :=
  let message_size := ntohl (mem 0) (mem 1) (mem 2) (mem 3)
  let message_code := mem 5
  if 20 ≤ message_code ∧ message_code ≤ 49 then message_size - 2 else message_size - 2 + 8

namespace Split

/-- A packet is skipped by the length it announces. The byte behind a packet was read with it,
unless the buffer ends. -/
def skip_packet (buf_size : Nat) (s : Split) : Split :=
  let s := s.skip buf_size (bytes_to_skip s.mem).toNat
  if s.byte_count < buf_size then s.step_back else s

theorem skip_packet_eq (buf_size : Nat) (s : Split) :
    s.skip_packet buf_size = s.skip_rest buf_size (bytes_to_skip s.mem).toNat := rfl

end Split

/-- The loop that reads an identification up to its terminator, or up to the end of the buffer
if it has none. -/
def ident_loop (buf : List UInt8) (buf_size : Nat) : Loop Split where
  more := fun s => s.byte_count < buf_size && !s.memcmp (s.mem_count - 1) [0x0D, 0x0A]
  body := fun s => .yield (s.next.read buf)
  measure := fun s => buf_size - s.byte_count
  decreases := by
    intro s t hmore hbody
    have hin : s.byte_count < buf_size := of_decide_eq_true (Bool.and_eq_true_iff.mp hmore).1
    cases hbody
    change buf_size - (s.byte_count + 1) < _
    omega

/-- The rest of a message whose first 7 bytes have been read: an identification or a packet,
which is told by the first bytes. -/
def ssh_message (buf : List UInt8) (buf_size : Nat) (s : Split) : Split :=
  if s.memcmp 0 ssh_ident then (ident_loop buf buf_size).exit s else s.skip_packet buf_size

/-- The loop's body. Bytes are read until there are enough to tell what the message is, and then
the message is read or skipped as a whole. -/
def ssh_body (buf : List UInt8) (buf_size : Nat) (s : Split) : ForInStep Split :=
  let s := s.read buf
  if 6 ≤ s.mem_count then
    let s := ssh_message buf buf_size s
    .yield (if s.cur_end < buf_size - 1 then s.end_request else { s with regions := s.regions ++ [s.region] })
  else
    let s := s.next
    if s.cur_end = buf_size - 1 then .done { s with regions := s.regions ++ [s.region] } else .yield s

section termination

variable {buf : List UInt8} {buf_size : Nat} {s t : Split}

/-- The three counters go on together while an identification is read. -/
theorem ident_loop_counts (buf : List UInt8) (buf_size : Nat) (s : Split) : ∃ n,
    ((ident_loop buf buf_size).exit s).byte_count = s.byte_count + n ∧
    ((ident_loop buf buf_size).exit s).mem_count = s.mem_count + n ∧
    ((ident_loop buf buf_size).exit s).cur_end = s.cur_end + n := by
  let P : Split → Prop := fun t => ∃ n,
    t.byte_count = s.byte_count + n ∧ t.mem_count = s.mem_count + n ∧ t.cur_end = s.cur_end + n
  refine Loop.exit_rule (I := P) (Q := P) ⟨0, rfl, rfl, rfl⟩ (fun t ht _ => ht) ?_ ?_
  · intro t u _ _ hbody
    cases hbody
  · rintro t u ⟨n, hbyte, hmem, hend⟩ _ hbody
    cases hbody
    exact ⟨n + 1, congrArg (· + 1) hbyte, congrArg (· + 1) hmem, congrArg (· + 1) hend⟩

/-- Both kinds of messages are read from their first bytes on. -/
theorem reads_rest_ssh (buf : List UInt8) (buf_size : Nat) : ReadsRest 6 (ssh_message buf buf_size) buf buf_size := by
  intro s h hlong
  rw [ssh_message]
  split
  · obtain ⟨n, hbyte, hmem, hend⟩ := ident_loop_counts buf buf_size (s.read buf)
    have hmem' := h.mem_count
    refine ⟨?_, ?_, fun hin => ?_⟩
    · rw [hbyte]
      change s.byte_count ≤ s.byte_count + 1 + n
      omega
    · rw [hbyte, hmem]
      change s.mem_count + n ≤ s.byte_count + 1 + n
      omega
    · rw [hbyte, hend]
      change s.cur_end + n + 1 = s.byte_count + 1 + n
      rw [h.cur_end hin]
      omega
  · rw [Split.skip_packet_eq]
    exact h.skip_rest (Nat.lt_of_lt_of_le (by decide) hlong) buf _

theorem ssh_body_keeps (s t : Split) (h : Level buf_size s)
    (hbody : ssh_body buf buf_size s = .done t ∨ ssh_body buf buf_size s = .yield t) : Level buf_size t :=
  framed_body_keeps (reads_rest_ssh buf buf_size) s t h hbody

theorem ssh_body_decreases (s t : Split) (h : Level buf_size s) (hmore : decide (s.byte_count < buf_size) = true)
    (hbody : ssh_body buf buf_size s = .yield t) : 2 * (buf_size - t.byte_count) + (if 6 ≤ t.mem_count then 1 else 0) <
      2 * (buf_size - s.byte_count) + if 6 ≤ s.mem_count then 1 else 0 :=
  framed_body_decreases (by decide) (reads_rest_ssh buf buf_size) s t h hmore hbody

end termination

/-- The loop of the extractor, on the states in which it ends: those in which the region that is
open ends with the next byte, and `mem` holds no more than was read. -/
def ssh_loop (buf : List UInt8) (buf_size : Nat) : Loop {s // Level buf_size s} :=
  .guarded (fun s => s.byte_count < buf_size) (ssh_body buf buf_size)
    (fun s => 2 * (buf_size - s.byte_count) + if 6 ≤ s.mem_count then 1 else 0) ssh_body_keeps ssh_body_decreases

/-- `extract_requests_ssh`: a buffer without any message makes one region. -/
def extract_requests_ssh (buf : List UInt8) (buf_size : Nat) : List region_t :=
  regions_or_whole ((ssh_loop buf buf_size).exit ⟨.start, level_start⟩).val.regions buf_size

/-- An identification: `"SSH-"` and a line, which has at least 3 bytes. -/
def IsIdent (line : List UInt8) : Prop := ∃ rest, line = ssh_ident ++ rest ∧ IsLine [0x0D, 0x0A] rest

/-- A packet is as long as its first 6 bytes say. -/
def IsPacket (packet : List UInt8) : Prop :=
  ¬ ssh_ident <+: packet ∧ packet.length = 6 + (bytes_to_skip fun i => packet[i]?.getD 0).toNat

/-- A message of the SSH protocol. -/
def IsMessage (message : List UInt8) : Prop := IsIdent message ∨ IsPacket message

section message

variable {message message' line packet piece rest : List UInt8}

theorem bytes_to_skip_congr {mem mem' : Nat → UInt8} (h : ∀ i, i < 6 → mem i = mem' i) :
    bytes_to_skip mem = bytes_to_skip mem' := by
  rw [bytes_to_skip, bytes_to_skip, h 0 (by decide), h 1 (by decide), h 2 (by decide), h 3 (by decide), h 5 (by decide)]

/-- The first 6 bytes tell the length. -/
theorem bytes_to_skip_starts (hstarts : message <+: message') (hlong : 6 ≤ message.length) :
    (bytes_to_skip fun i => message'[i]?.getD 0) = bytes_to_skip fun i => message[i]?.getD 0 := by
  obtain ⟨rest, rfl⟩ := hstarts
  refine bytes_to_skip_congr fun i hi => ?_
  rw [List.getElem?_append_left (Nat.lt_of_lt_of_le hi hlong)]

theorem IsIdent.long (h : IsIdent line) : 6 < line.length := by
  obtain ⟨rest, rfl, hrest⟩ := h
  have hlong : 2 < rest.length := hrest.long
  rw [List.length_append]
  change 6 < 4 + rest.length
  omega

theorem IsPacket.long (h : IsPacket packet) : 5 < packet.length := by
  rw [h.2]
  exact Nat.lt_add_right _ (Nat.lt_succ_self 5)

theorem IsMessage.long (h : IsMessage message) : 5 < message.length := by
  rcases h with hident | hpacket
  · exact Nat.lt_of_succ_lt hident.long
  · exact hpacket.long

theorem IsMessage.ne_nil (h : IsMessage message) : message ≠ [] :=
  List.ne_nil_of_length_pos (Nat.lt_of_le_of_lt (Nat.zero_le _) h.long)

/-- The first bytes decide between the two formats. -/
theorem IsMessage.isIdent (h : IsMessage message) (hstarts : message <+: piece) (hident : ssh_ident <+: piece) :
    IsIdent message := by
  refine h.resolve_right fun hpacket => hpacket.1 ?_
  exact List.prefix_of_prefix_length_le hident hstarts (Nat.le_trans (by decide) (Nat.le_of_lt hpacket.long))

/-- A message that does not start as an identification is a packet. -/
theorem IsMessage.isPacket (h : IsMessage message) (hstarts : message <+: piece) (hpacket : ¬ ssh_ident <+: piece) :
    IsPacket message := by
  refine h.resolve_left ?_
  rintro ⟨rest, rfl, _⟩
  exact hpacket ((List.prefix_append ..).trans hstarts)

/-- An identification reaches up to its terminator. -/
theorem IsIdent.eq_of_open {r : List UInt8} (h : IsIdent message) (heq : ssh_ident ++ rest = message ++ r)
    (hopen : Open [0x0D, 0x0A] rest.dropLast) : r = [] := by
  obtain ⟨rest', rfl, hrest'⟩ := h
  rw [List.append_assoc] at heq
  rw [List.append_cancel_left heq] at hopen
  exact hrest'.rest_eq_nil hopen

theorem prefixFree_isMessage : PrefixFree IsMessage := by
  intro message message' h h' hstarts
  by_cases hident : ssh_ident <+: message'
  · have hshort := h.isIdent hstarts hident
    obtain ⟨rest, rfl, hrest⟩ := h'.isIdent List.prefix_rfl hident
    obtain ⟨r, heq⟩ := hstarts
    rw [hshort.eq_of_open heq.symm hrest.first, List.append_nil] at heq
    exact heq
  · have hshort := h.isPacket hstarts hident
    have hlong := h'.isPacket List.prefix_rfl hident
    refine hstarts.eq_of_length ?_
    rw [hshort.2, hlong.2, bytes_to_skip_starts hstarts (Nat.succ_le_of_lt hshort.long)]

end message

/-- The last message is an identification. -/
def LastIdent (messages : List (List UInt8)) : Prop := ∃ line ∈ messages.getLast?, IsIdent line

/-- What the loop found, in terms of the messages of the buffer: one byte that is left after an
identification is in no region. -/
def SshFound (buf : List UInt8) (buf_size : Nat) (regions : List region_t) : Prop :=
  ∃ messages rest, (∀ message ∈ messages, IsMessage message) ∧ Wordless IsMessage rest ∧
    messages.flatten ++ rest = buf.take buf_size ∧
    ((rest.length = 1 ∧ (messages = [] ∨ LastIdent messages) ∧ regions = consecutive_regions 0 messages) ∨
      (¬ (LastIdent messages ∧ rest.length = 1) ∧
        ∃ pieces, (∀ piece ∈ pieces, piece ≠ []) ∧ pieces.flatten = buf.take buf_size ∧
          regions = consecutive_regions 0 pieces))

/-- The format of SSH, in the terms of framed messages. Only an identification ends exactly
where it says. -/
def ssh_format : Format where
  header := 6
  IsMessage := IsMessage
  Exact := IsIdent
  two_le := by decide
  long := fun _ h => h.long
  exact_long := fun _ h => h.long
  prefixFree := prefixFree_isMessage

section ssh_body

variable {buf : List UInt8} {buf_size : Nat} {messages : List (List UInt8)} {piece : List UInt8} {s t : Split}

section ident

/-- Within an identification, the byte just read included: behind the name there is no
terminator so far. -/
structure InIdent (buf : List UInt8) (buf_size : Nat) (messages : List (List UInt8)) (s : Split) : Prop where
  cut : CutInto buf messages s.next
  within : s.byte_count ≤ buf_size
  rest : ∃ rest, s.next.line = ssh_ident ++ rest ∧ 3 ≤ rest.length ∧ Open [0x0D, 0x0A] rest.dropLast

/-- The 7th byte of an identification has just been read. -/
theorem in_ident (h : ssh_format.AtMessage buf buf_size messages s) (hin : s.byte_count < buf_size)
    (hsize : buf_size ≤ buf.length) (hsix : s.mem_count = 6) (hident : ssh_ident <+: s.line) :
    InIdent buf buf_size messages (s.read buf) := by
  refine ⟨h.next_read (Nat.lt_of_lt_of_le hin hsize), hin, ?_⟩
  obtain ⟨start, hstart⟩ := hident
  have hlength : 4 + start.length = 6 := by
    rw [← hsix, ← s.toReader.length_line, ← hstart, List.length_append]
    rfl
  refine ⟨start ++ [buf[s.byte_count]?.getD 0], ?_, ?_, ?_⟩
  · rw [← List.append_assoc, hstart]
    exact s.toReader.line_next_read buf
  · rw [List.length_append, List.length_singleton]
    omega
  · rw [List.dropLast_concat]
    refine open_of_short ?_
    change start.length ≤ 2
    omega

/-- The comparison decides whether the line has ended. -/
theorem ident_ends_iff {rest : List UInt8} (hline : s.next.line = ssh_ident ++ rest) (hlong : 3 ≤ rest.length) :
    s.memcmp (s.mem_count - 1) [0x0D, 0x0A] = true ↔ [0x0D, 0x0A] <:+ rest := by
  have hlength : s.mem_count + 1 = 4 + rest.length := by
    have hlength := congrArg List.length hline
    rw [Reader.length_line, List.length_append] at hlength
    exact hlength
  have hends := @Reader.memcmp_iff s.next.toReader [0x0D, 0x0A] (show 2 ≤ s.mem_count + 1 by omega)
  rw [hline] at hends
  refine hends.trans ⟨fun hsuffix => ?_, fun hsuffix => hsuffix.trans (List.suffix_append ..)⟩
  exact List.suffix_of_suffix_length_le hsuffix (List.suffix_append ..) (Nat.le_trans (by decide) hlong)

/-- One more byte that does not end the identification. -/
theorem InIdent.next (h : InIdent buf buf_size messages s) (hin : s.byte_count < buf_size) (hsize : buf_size ≤ buf.length)
    (hends : ¬ s.memcmp (s.mem_count - 1) [0x0D, 0x0A] = true) : InIdent buf buf_size messages (s.next.read buf) := by
  obtain ⟨rest, hline, hlong, hopen⟩ := h.rest
  rw [ident_ends_iff hline hlong] at hends
  refine ⟨h.cut.next_read (Nat.lt_of_lt_of_le hin hsize), hin, rest ++ [buf[s.byte_count]?.getD 0], ?_, ?_, ?_⟩
  · rw [← List.append_assoc, ← hline]
    exact s.next.toReader.line_next_read buf
  · rw [List.length_append]
    exact Nat.le_add_right_of_le hlong
  · rw [List.dropLast_concat]
    exact hopen.of_dropLast hends

theorem at_end_ident (h : ssh_format.AtMessage buf buf_size messages s) (hin : s.byte_count < buf_size)
    (hsize : buf_size ≤ buf.length) (hsix : s.mem_count = 6) (hident : ssh_ident <+: s.line) :
    ∃ piece, ssh_format.AtEnd buf buf_size messages piece s ((ident_loop buf buf_size).exit (s.read buf)) := by
  refine Loop.exit_rule (I := InIdent buf buf_size messages)
    (Q := fun t => ∃ piece, ssh_format.AtEnd buf buf_size messages piece s t) (in_ident h hin hsize hsix hident) ?_ ?_ ?_
  · intro t ht hstop
    obtain ⟨rest, hline, hlong, hopen⟩ := ht.rest
    refine ⟨t.next.line, ht.cut.text, ?_, ht.within, ht.cut.cur_start.trans h.cur_start.symm, ht.cut.cur_end,
      ht.cut.regions.trans h.regions.symm, fun hmore => ?_, fun _ w r hw heq => ?_⟩
    · rw [hline, List.length_append]
      exact Nat.le_trans (by decide) (Nat.le_add_left_of_le hlong)
    · have hends : t.memcmp (t.mem_count - 1) [0x0D, 0x0A] = true := by
        change (decide (t.byte_count < buf_size) && !t.memcmp (t.mem_count - 1) [0x0D, 0x0A]) = false at hstop
        rw [decide_eq_true hmore, Bool.true_and, Bool.not_eq_false'] at hstop
        exact hstop
      have hmessage : IsIdent t.next.line := ⟨rest, hline, hlong, (ident_ends_iff hline hlong).mp hends, hopen⟩
      exact ⟨Or.inl hmessage, fun _ => hmessage⟩
    · rw [hline] at heq
      have hshort := IsMessage.isIdent hw ⟨r, heq.symm⟩ (List.prefix_append ssh_ident rest)
      exact Or.inl (hshort.eq_of_open heq hopen)
  · intro t u _ _ hbody
    cases hbody
  · intro t u ht hmore hbody
    cases hbody
    obtain ⟨hin', hgo⟩ := Bool.and_eq_true_iff.mp hmore
    exact ht.next (of_decide_eq_true hin') hsize fun hends => by rw [hends] at hgo; cases hgo

end ident

section packet

/-- The first 6 bytes of a packet are in `mem`. -/
theorem bytes_to_skip_read (hsix : s.mem_count = 6) (hstarts : s.line <+: piece) :
    bytes_to_skip (s.read buf).mem = bytes_to_skip fun i => piece[i]?.getD 0 := by
  rw [bytes_to_skip_starts hstarts (Nat.le_of_eq (hsix.symm.trans s.toReader.length_line.symm))]
  refine bytes_to_skip_congr fun i hi => ?_
  rw [← s.toReader.line_read buf]
  exact Reader.mem_eq_getD (show i < s.mem_count from hsix ▸ hi)

theorem at_end_packet (h : ssh_format.AtMessage buf buf_size messages s) (hin : s.byte_count < buf_size)
    (hsize : buf_size ≤ buf.length) (hsix : s.mem_count = 6) (hpacket : ¬ ssh_ident <+: s.line) :
    ∃ piece, ssh_format.AtEnd buf buf_size messages piece s ((s.read buf).skip_packet buf_size) := by
  have hlength : s.line.length = 6 := s.toReader.length_line.trans hsix
  have hnot : ∀ {piece}, s.line <+: piece → ¬ ssh_ident <+: piece := fun hstarts hident =>
    hpacket (List.prefix_of_prefix_length_le hident hstarts (hlength ▸ by decide))
  rw [Split.skip_packet_eq]
  refine h.at_end_skip hin hsize hsix (fun piece hstarts hlong => ?_) (fun w hw hstarts => ?_)
  · rw [bytes_to_skip_read hsix hstarts] at hlong
    exact Or.inr ⟨hnot hstarts, hlong⟩
  · have hw' : IsPacket w := IsMessage.isPacket hw List.prefix_rfl (hnot hstarts)
    rw [bytes_to_skip_read hsix hstarts]
    refine ⟨hw'.2, ?_⟩
    rintro ⟨rest, rfl, _⟩
    exact hw'.1 (List.prefix_append ..)

end packet

/-- Together: the rest of a message is read as the format says. -/
theorem reads_ssh (hsize : buf_size ≤ buf.length) : ssh_format.Reads (ssh_message buf buf_size) buf buf_size := by
  intro messages s h hin hsix
  have hstart : (s.read buf).memcmp 0 ssh_ident = true ↔ ssh_ident <+: s.line := by
    rw [← s.toReader.line_read buf]
    exact Reader.memcmp_start_iff (Nat.le_trans (by decide) (Nat.le_of_eq hsix.symm))
  rw [ssh_message]
  split
  · rename_i hident
    exact at_end_ident h hin hsize hsix (hstart.mp hident)
  · rename_i hident
    exact at_end_packet h hin hsize hsix fun hstarts => hident (hstart.mpr hstarts)

theorem lastIdent_concat {message : List UInt8} : LastIdent (messages ++ [message]) ↔ IsIdent message := by
  simp [LastIdent]

/-- One more message may be found in the last piece. -/
theorem ssh_found {regions : List region_t}
    (h : ssh_format.Found buf buf_size regions) : SshFound buf buf_size regions := by
  obtain ⟨messages, piece, hmessages, htext, ⟨hone, hlast, hregions⟩ | ⟨hlong, hnearly, hregions⟩⟩ := h
  · exact ⟨messages, piece, hmessages, wordless_of_short (fun _ hmessage => hmessage.long) (hone ▸ by decide), htext,
      Or.inl ⟨hone, hlast, hregions⟩⟩
  have hpieces : ∃ pieces, (∀ piece ∈ pieces, piece ≠ []) ∧ pieces.flatten = buf.take buf_size ∧
      regions = consecutive_regions 0 pieces := by
    refine ⟨_, ?_, ?_, hregions⟩
    · exact List.forall_mem_append.mpr ⟨fun message hmessage => (hmessages message hmessage).ne_nil,
        List.forall_mem_singleton.mpr (List.ne_nil_of_length_pos (Nat.lt_of_lt_of_le Nat.zero_lt_two hlong))⟩
    · rw [List.flatten_append, List.flatten_singleton, htext]
  by_cases hnone : Wordless IsMessage piece
  · exact ⟨messages, piece, hmessages, hnone, htext, Or.inr ⟨fun hstray => by omega, hpieces⟩⟩
  · simp only [Wordless, not_forall, not_not] at hnone
    obtain ⟨w, hw, r, hr⟩ := hnone
    have hends := hnearly w r hw hr.symm
    have hshort : r.length ≤ 1 := by
      rcases hends with rfl | ⟨_, hshort⟩
      · exact Nat.zero_le _
      · exact hshort
    refine ⟨messages ++ [w], r, List.forall_mem_append.mpr ⟨hmessages, List.forall_mem_singleton.mpr hw⟩, ?_, ?_,
      Or.inr ⟨?_, hpieces⟩⟩
    · exact wordless_of_short (fun _ hmessage => hmessage.long) (Nat.le_trans hshort (by decide))
    · rw [List.flatten_append, List.flatten_singleton, List.append_assoc, hr, htext]
    · rintro ⟨hlast, hone⟩
      rcases hends with rfl | ⟨hpacket, _⟩
      · cases hone
      · exact hpacket (lastIdent_concat.mp hlast)

/-- What the loop finds in any buffer that is not empty. -/
theorem ssh_loop_exit (hpos : 0 < buf_size) (hsize : buf_size ≤ buf.length) :
    ssh_format.Found buf buf_size ((ssh_loop buf buf_size).exit ⟨.start, level_start⟩).val.regions :=
  Format.framed_loop_exit (f := ssh_format) (by decide) (reads_rest_ssh buf buf_size) (reads_ssh hsize) hpos hsize

end ssh_body

/-- The text ends one byte behind an identification. The messages before it can be of both
kinds. -/
def SshStray (text : List UInt8) : Prop :=
  ∃ (messages : List (List UInt8)) (line : List UInt8) (byte : UInt8),
    (∀ message ∈ messages, IsMessage message) ∧ IsIdent line ∧ messages.flatten ++ line ++ [byte] = text

/-- The regions of SSH requests are consecutive pieces of the whole buffer, unless it ends one
byte behind an identification. This includes packets whose announced length wraps or exceeds the
buffer. -/
theorem covers_extract_requests_ssh_iff {buf : List UInt8} {buf_size : Nat} (hpos : 0 < buf_size)
    (hsize : buf_size ≤ buf.length) :
    Covers (extract_requests_ssh buf buf_size) buf_size ↔ ¬ SshStray (buf.take buf_size) := by
  obtain ⟨messages, rest, hmessages, hrest, htext, hfound⟩ := ssh_found (ssh_loop_exit hpos hsize)
  have hlength : messages.flatten.length + rest.length = buf_size := by
    rw [← List.length_append, htext, List.length_take, Nat.min_eq_left hsize]
  have hstray : SshStray (buf.take buf_size) ↔ LastIdent messages ∧ rest.length = 1 := by
    constructor
    · rintro ⟨before, line, byte, hbefore, hline, htext'⟩
      have hall : ∀ message ∈ before ++ [line], IsMessage message :=
        List.forall_mem_append.mpr ⟨hbefore, List.forall_mem_singleton.mpr (Or.inl hline)⟩
      have hflatten : (before ++ [line]).flatten ++ [byte] = messages.flatten ++ rest := by
        rw [List.flatten_append, List.flatten_singleton, htext', htext]
      have hbyte : Wordless IsMessage [byte] :=
        wordless_of_short (fun _ hmessage => hmessage.long) (show [byte].length ≤ 5 from Nat.le_add_left 1 4)
      obtain ⟨rfl, rfl⟩ := prefixFree_isMessage.unique hmessages hall hrest hbyte hflatten
      exact ⟨lastIdent_concat.mpr hline, rfl⟩
    · rintro ⟨⟨line, hlast, hline⟩, hone⟩
      obtain ⟨before, rfl⟩ := List.getLast?_eq_some_iff.mp hlast
      obtain ⟨byte, rfl⟩ := List.length_eq_one_iff.mp hone
      refine ⟨before, line, byte, fun message hmessage => hmessages message (List.mem_append_left _ hmessage), hline, ?_⟩
      rw [← htext, List.flatten_append, List.flatten_singleton]
  rw [hstray, extract_requests_ssh]
  rcases hfound with ⟨hone, hends, hregions⟩ | ⟨hnot, pieces, hpieces, hall, hregions⟩
  · rw [hregions]
    rcases hends with rfl | hlast
    · rw [hone, List.flatten_nil, List.length_nil] at hlength
      subst hlength
      refine iff_of_true covers_whole ?_
      rintro ⟨⟨line, hlast, _⟩, _⟩
      cases hlast
    · have hsome : messages ≠ [] := by
        rintro rfl
        obtain ⟨line, hnone, _⟩ := hlast
        cases hnone
      exact iff_of_false (not_covers_of_pieces (fun message hmessage => (hmessages message hmessage).ne_nil) hsome (by omega))
        fun hnot => hnot ⟨hlast, hone⟩
  · rw [hregions]
    exact iff_of_true (covers_of_pieces hpieces (by rw [hall, List.length_take, Nat.min_eq_left hsize]) hpos) hnot

/-- A packet without payload, and two bytes of the next one. -/
theorem packet_is_covered : Covers (extract_requests_ssh [0, 0, 0, 2, 0, 20, 0, 0] 8) 8 := by
  refine (covers_extract_requests_ssh_iff (by decide) (by decide)).mpr ?_
  rintro ⟨messages, line, byte, hmessages, hline, htext⟩
  cases messages with
  | nil =>
    obtain ⟨rest, rfl, _⟩ := hline
    have hfirst : some (0x53 : UInt8) = some 0 := congrArg List.head? htext
    exact absurd hfirst (by decide)
  | cons message messages =>
    have hlong := (hmessages message (List.mem_cons_self ..)).long
    have hlong' := hline.long
    have hlength := congrArg List.length htext
    rw [List.flatten_cons, List.length_append, List.length_append, List.length_append] at hlength
    change message.length + messages.flatten.length + line.length + 1 = 8 at hlength
    omega

/-- One byte after an identification is lost. -/
theorem byte_after_ident_is_lost :
    extract_requests_ssh [0x53, 0x53, 0x48, 0x2D, 50, 13, 10, 65] 8 = [.fresh 0 6] ∧
    ¬ Covers (extract_requests_ssh [0x53, 0x53, 0x48, 0x2D, 50, 13, 10, 65] 8) 8 := by
  have heq : extract_requests_ssh [0x53, 0x53, 0x48, 0x2D, 50, 13, 10, 65] 8 = [.fresh 0 6] := by decide
  refine ⟨heq, fun hcovers => ?_⟩
  have hstop := hcovers.tiles.stop_eq
  rw [heq] at hstop
  exact absurd hstop (by decide)

section whole_messages

/-- An identification line as the protocol has it: its only terminator is at its end. -/
structure IdentLine (line : List UInt8) : Prop where
  long : 7 ≤ line.length
  starts : ssh_ident <+: line
  ends : [0x0D, 0x0A] <:+ line
  only : ¬ [0x0D, 0x0A] <:+: line.dropLast

/-- The first four bytes of a packet as a number. -/
def packet_size (packet : List UInt8) : UInt32 :=
  ntohl (packet[0]?.getD 0) (packet[1]?.getD 0) (packet[2]?.getD 0) (packet[3]?.getD 0)

/-- The message type of a packet. -/
def packet_code (packet : List UInt8) : UInt8 := packet[5]?.getD 0

/-- A packet has a MAC of 8 bytes, unless it is about the key exchange. -/
def mac_size (packet : List UInt8) : Nat := if 20 ≤ packet_code packet ∧ packet_code packet ≤ 49 then 0 else 8

/-- A binary packet as the protocol has it: its size, as many bytes and the MAC. It does not
start as an identification does. -/
structure BinaryPacket (packet : List UInt8) : Prop where
  starts : ¬ ssh_ident <+: packet
  two_le : 2 ≤ packet_size packet
  length : packet.length = 4 + (packet_size packet).toNat + mac_size packet

variable {line packet : List UInt8}

/-- Such a line is an identification as the extractor sees it. -/
theorem IdentLine.isIdent (h : IdentLine line) : IsIdent line := by
  obtain ⟨hlong, ⟨rest, rfl⟩, hends, honly⟩ := h
  have hrest : 3 ≤ rest.length := by
    rw [List.length_append] at hlong
    exact Nat.le_of_add_le_add_left (show 4 + 3 ≤ 4 + rest.length from hlong)
  have hne : rest ≠ [] := List.ne_nil_of_length_pos (Nat.lt_of_lt_of_le (by decide) hrest)
  refine ⟨rest, rfl, hrest, ?_, fun start hstart _ hbefore => honly ?_⟩
  · exact List.suffix_of_suffix_length_le hends (List.suffix_append ..) (Nat.le_trans (by decide) hrest)
  · rw [List.dropLast_append_of_ne_nil hne]
    exact (hbefore.isInfix.trans hstart.isInfix).trans (List.suffix_append ..).isInfix

/-- The number of bytes to skip does not wrap around for a packet that is in memory. -/
theorem BinaryPacket.isPacket (h : BinaryPacket packet) (hlt : packet.length < UInt32.size) : IsPacket packet := by
  obtain ⟨hstarts, htwo, hlength⟩ := h
  refine ⟨hstarts, hlength.trans ?_⟩
  rw [hlength] at hlt
  have htwo' : 2 ≤ (packet_size packet).toNat := UInt32.le_iff_toNat_le.mp htwo
  have hsub : (packet_size packet - 2).toNat = (packet_size packet).toNat - 2 := UInt32.toNat_sub_of_le _ _ htwo
  change _ = 6 + (if 20 ≤ packet_code packet ∧ packet_code packet ≤ 49 then packet_size packet - 2
    else packet_size packet - 2 + 8).toNat
  by_cases hcode : 20 ≤ packet_code packet ∧ packet_code packet ≤ 49
  · rw [mac_size, if_pos hcode, if_pos hcode, hsub]
    omega
  · rw [mac_size, if_neg hcode] at hlt ⊢
    rw [if_neg hcode, UInt32.toNat_add, hsub]
    change _ = 6 + ((packet_size packet).toNat - 2 + 8) % UInt32.size
    rw [Nat.mod_eq_of_lt (by omega)]
    omega

/-- The regions of a buffer of whole SSH messages are the messages: identifications that end
with a newline, and packets, with the MAC behind those that have one. There can be any number of
them in any order. -/
theorem extract_requests_ssh_messages {buf : List UInt8} {buf_size : Nat} {messages : List (List UInt8)}
    (hsize : buf_size ≤ buf.length) (hlt : buf_size < UInt32.size) (hne : messages ≠ [])
    (hmessages : ∀ message ∈ messages, IdentLine message ∨ BinaryPacket message)
    (htext : buf.take buf_size = messages.flatten) :
    extract_requests_ssh buf buf_size = consecutive_regions 0 messages := by
  have hlength : messages.flatten.length = buf_size := by
    rw [← htext, List.length_take, Nat.min_eq_left hsize]
  have hall : ∀ message ∈ messages, IsMessage message := fun message hmessage => by
    refine (hmessages message hmessage).imp IdentLine.isIdent fun hpacket => hpacket.isPacket ?_
    have hle := (List.sublist_flatten_of_mem hmessage).length_le
    omega
  have hpos : 0 < buf_size := by
    cases messages with
    | nil => exact absurd rfl hne
    | cons message messages =>
      have hlong := (hall message (List.mem_cons_self ..)).long
      rw [List.flatten_cons, List.length_append] at hlength
      omega
  exact (ssh_loop_exit hpos hsize).eq_messages hne hall htext

/-- An identification, a packet of the key exchange and one with a MAC. -/
theorem three_messages_are_found :
    extract_requests_ssh ([0x53, 0x53, 0x48, 0x2D, 50, 13, 10] ++ [0, 0, 0, 2, 0, 20] ++
      [0, 0, 0, 3, 0, 1, 7, 0, 0, 0, 0, 0, 0, 0, 0]) 28 = [.fresh 0 6, .fresh 7 12, .fresh 13 27] := by
  have hmessages : ∀ message ∈ [[0x53, 0x53, 0x48, 0x2D, 50, 13, 10], [0, 0, 0, 2, 0, 20],
      [0, 0, 0, 3, 0, 1, 7, 0, 0, 0, 0, 0, 0, 0, 0]], IdentLine message ∨ BinaryPacket message := by
    simp only [List.forall_mem_cons, List.not_mem_nil, false_implies, implies_true, and_true]
    exact ⟨Or.inl ⟨by decide, by decide, by decide, by decide⟩, Or.inr ⟨by decide, by decide, by decide⟩,
      Or.inr ⟨by decide, by decide, by decide⟩⟩
  exact extract_requests_ssh_messages (by decide) (by decide) (by decide) hmessages (by decide)

end whole_messages

end aflnet
