import AflnetLegion.Lib.PrefixCode
import AflnetLegion.Protocol.Pieces

open PrefixCode

namespace aflnet

namespace Split

/-- `n` bytes are passed over unread. -/
def advance (s : Split) (n : Nat) : Split := { s with byte_count := s.byte_count + n, cur_end := s.cur_end + n }

/-- `byte_count--` and `cur_end--`. -/
def step_back (s : Split) : Split := { s with byte_count := s.byte_count - 1, cur_end := s.cur_end - 1 }

/-- The loop that skips a packet, with `left` bytes to go. The position and the end of the open
region go up together. -/
def skip (buf_size : Nat) : Nat → Split → Split
  | 0, s => s
  | left + 1, s => if s.byte_count < buf_size then skip buf_size left (s.advance 1) else s

theorem skip_eq (buf_size left : Nat) (s : Split) :
    skip buf_size left s = s.advance (min left (buf_size - s.byte_count)) := by
  induction left generalizing s with
  | zero =>
    rw [skip, Nat.zero_min]
    rfl
  | succ left ih =>
    rw [skip]
    split
    · rename_i hin
      rw [ih, show min (left + 1) (buf_size - s.byte_count) = 1 + min left (buf_size - (s.byte_count + 1)) by omega]
      simp only [advance, Nat.add_assoc]
    · rename_i hout
      rw [show min (left + 1) (buf_size - s.byte_count) = 0 by omega]
      rfl

/-- The rest of a message is skipped. The byte behind a message was read with it, unless the
buffer ends, so there is a step back. -/
def skip_rest (buf_size n : Nat) (s : Split) : Split :=
  let s := s.skip buf_size n
  if s.byte_count < buf_size then s.step_back else s

variable {buf_size n : Nat} {s : Split}

/-- Before the end of the buffer the byte behind the message is given back. -/
theorem skip_rest_of_lt (h : s.byte_count + n < buf_size) : s.skip_rest buf_size n = (s.advance n).step_back := by
  rw [skip_rest, skip_eq, Nat.min_eq_left (by omega)]
  exact if_pos h

theorem skip_rest_of_le (h : buf_size ≤ s.byte_count + n) : s.skip_rest buf_size n = s.advance (buf_size - s.byte_count) := by
  rw [skip_rest, skip_eq, Nat.min_eq_right (by omega)]
  refine if_neg (Nat.not_lt_of_le ?_)
  change buf_size ≤ s.byte_count + (buf_size - s.byte_count)
  omega

end Split

/-- What the loop needs to end: a round may leave it at the same byte, with an empty
message. -/
structure Level (buf_size : Nat) (s : Split) : Prop where
  mem_count : s.mem_count ≤ s.byte_count
  cur_end : s.byte_count < buf_size → s.cur_end = s.byte_count

/-- The loop's body for messages that tell by their first `header` bytes how they go on.
The byte behind these is read before `message` reads the rest. -/
def framed_body (header : Nat) (message : Split → Split) (buf : List UInt8) (buf_size : Nat) (s : Split) :
    ForInStep Split :=
  let s := s.read buf
  if header ≤ s.mem_count then
    let s := message s
    .yield (if s.cur_end < buf_size - 1 then s.end_request else { s with regions := s.regions ++ [s.region] })
  else
    let s := s.next
    if s.cur_end = buf_size - 1 then .done { s with regions := s.regions ++ [s.region] } else .yield s

/-- Where the rest of a message ends: not before the byte the message was recognized at, and
with its counters together unless the buffer has ended. -/
structure EndsLevel (buf_size : Nat) (s t : Split) : Prop where
  byte_count : s.byte_count ≤ t.byte_count
  mem_count : t.mem_count ≤ t.byte_count
  cur_end : s.byte_count < buf_size → t.cur_end + 1 = t.byte_count

/-- What the loop needs of `message`. -/
def ReadsRest (header : Nat) (message : Split → Split) (buf : List UInt8) (buf_size : Nat) : Prop :=
  ∀ s, Level buf_size s → header ≤ s.mem_count → EndsLevel buf_size s (message (s.read buf))

section termination

variable {header : Nat} {message : Split → Split} {buf : List UInt8} {buf_size : Nat} {s t : Split}

theorem level_start : Level buf_size .start := ⟨Nat.le_refl _, fun _ => rfl⟩

/-- A message that is skipped ends where the loop can go on. -/
theorem Level.skip_rest (h : Level buf_size s) (hpos : 0 < s.mem_count) (buf : List UInt8) (n : Nat) :
    EndsLevel buf_size s ((s.read buf).skip_rest buf_size n) := by
  obtain ⟨hmem, hend⟩ := h
  rcases Nat.lt_or_ge ((s.read buf).byte_count + n) buf_size with hfits | hends
  · rw [Split.skip_rest_of_lt hfits]
    refine ⟨?_, ?_, fun hin => ?_⟩
    · change s.byte_count ≤ s.byte_count + 1 + n - 1
      omega
    · change s.mem_count ≤ s.byte_count + 1 + n - 1
      omega
    · change s.cur_end + n - 1 + 1 = s.byte_count + 1 + n - 1
      have := hend hin
      omega
  · rw [Split.skip_rest_of_le hends]
    generalize buf_size - (s.read buf).byte_count = n
    refine ⟨?_, ?_, fun hin => ?_⟩
    · change s.byte_count ≤ s.byte_count + 1 + n
      omega
    · change s.mem_count ≤ s.byte_count + 1 + n
      omega
    · change s.cur_end + n + 1 = s.byte_count + 1 + n
      have := hend hin
      omega

theorem framed_body_keeps (hmessage : ReadsRest header message buf buf_size) (s t : Split) (h : Level buf_size s)
    (hbody : framed_body header message buf buf_size s = .done t ∨ framed_body header message buf buf_size s = .yield t) :
    Level buf_size t := by
  have hnext : Level buf_size (s.read buf).next :=
    ⟨Nat.succ_le_succ h.mem_count, fun hin => congrArg (· + 1) (h.cur_end (Nat.lt_of_succ_lt hin))⟩
  rw [framed_body] at hbody
  dsimp only at hbody
  split at hbody
  · rename_i hlong
    obtain ⟨hbyte, hmem, hend⟩ := hmessage s h hlong
    rcases hbody with hbody | hbody
    · cases hbody
    · cases hbody
      split
      · exact ⟨Nat.zero_le _, fun hin => hend (Nat.lt_of_le_of_lt hbyte hin)⟩
      · rename_i hlast
        refine ⟨hmem, fun hin => absurd hlast (not_not.mpr ?_)⟩
        have := hend (Nat.lt_of_le_of_lt hbyte hin)
        change (message (s.read buf)).byte_count < buf_size at hin
        omega
  · split at hbody
    · rcases hbody with hbody | hbody
      · cases hbody
        exact ⟨hnext.mem_count, hnext.cur_end⟩
      · cases hbody
    · rcases hbody with hbody | hbody
      · cases hbody
      · cases hbody
        exact hnext

/-- A round that stays at the same byte has at least left the header of a message behind. -/
theorem framed_body_decreases (hpos : 0 < header) (hmessage : ReadsRest header message buf buf_size) (s t : Split) (h : Level buf_size s)
    (hmore : decide (s.byte_count < buf_size) = true) (hbody : framed_body header message buf buf_size s = .yield t) :
    2 * (buf_size - t.byte_count) + (if header ≤ t.mem_count then 1 else 0) <
      2 * (buf_size - s.byte_count) + if header ≤ s.mem_count then 1 else 0 := by
  have hin := of_decide_eq_true hmore
  rw [framed_body] at hbody
  dsimp only at hbody
  split at hbody
  · rename_i hlong
    obtain ⟨hbyte, _, hend⟩ := hmessage s h hlong
    rw [if_pos (show header ≤ s.mem_count from hlong)]
    cases hbody
    split
    · change 2 * (buf_size - (message (s.read buf)).byte_count) + (if header ≤ 0 then 1 else 0) < _
      rw [if_neg (Nat.not_le_of_lt hpos)]
      omega
    · change 2 * (buf_size - (message (s.read buf)).byte_count) + _ < _
      have := hend hin
      split <;> omega
  · split at hbody
    · cases hbody
    · cases hbody
      change 2 * (buf_size - (s.byte_count + 1)) + _ < _
      split <;> split <;> omega

end termination

/-- The loop on the states in which it ends. What a format has to say is how its messages go on,
and what makes their length. -/
def framed_loop (header : Nat) (message : Split → Split) (buf : List UInt8) (buf_size : Nat) (hpos : 0 < header)
    (hmessage : ReadsRest header message buf buf_size) : Loop {s // Level buf_size s} :=
  .guarded (fun s => s.byte_count < buf_size) (framed_body header message buf buf_size)
    (fun s => 2 * (buf_size - s.byte_count) + if header ≤ s.mem_count then 1 else 0) (framed_body_keeps hmessage)
    (framed_body_decreases hpos hmessage)

/-- The messages of a protocol whose first `header` bytes tell how they go on. The extractor
finds out that a message has ended by a byte behind it, except for the exact ones. -/
structure Format where
  header : Nat
  IsMessage : List UInt8 → Prop
  Exact : List UInt8 → Prop
  two_le : 2 ≤ header
  long : ∀ message, IsMessage message → header ≤ message.length
  exact_long : ∀ message, Exact message → header < message.length
  prefixFree : PrefixFree IsMessage

namespace Format

variable (f : Format)

/-- The last message is an exact one. -/
def LastExact (messages : List (List UInt8)) : Prop := ∃ message ∈ messages.getLast?, f.Exact message

/-- The loop at its head, with the messages that were cut. The last byte of the buffer is left,
or is lost, only behind an exact message. -/
structure AtMessage (buf : List UInt8) (buf_size : Nat) (messages : List (List UInt8)) (s : Split) : Prop extends
    CutInto buf messages s where
  ended : ∀ message ∈ messages, f.IsMessage message
  mem_count : s.mem_count ≤ f.header
  within : s.byte_count ≤ buf_size
  stray : buf_size ≤ s.byte_count + 1 → s.byte_count + 1 = buf_size + s.mem_count ∧ (messages = [] ∨ f.LastExact messages)

/-- `piece` has at most one byte behind its first message, if it holds one. -/
def NearlyOne (piece : List UInt8) : Prop :=
  ∀ w r, f.IsMessage w → piece = w ++ r → r = [] ∨ (¬ f.Exact w ∧ r.length ≤ 1)

/-- A message has been read up to its end, or up to the end of the buffer. The piece that was
read may have one byte more than the message. -/
structure AtEnd (buf : List UInt8) (buf_size : Nat) (messages : List (List UInt8)) (piece : List UInt8) (s t : Split) :
    Prop where
  text : messages.flatten ++ piece = buf.take t.byte_count
  long : 2 ≤ piece.length
  within : t.byte_count ≤ buf_size
  cur_start : t.cur_start = s.cur_start
  cur_end : t.cur_end + 1 = t.byte_count
  regions : t.regions = s.regions
  message : t.byte_count < buf_size → f.IsMessage piece ∧ (buf_size ≤ t.byte_count + 1 → f.Exact piece)
  whole : t.byte_count = buf_size → f.NearlyOne piece

/-- What the loop found: messages, and a last piece up to the end of the buffer. A piece of
one byte is in no region. -/
def Found (buf : List UInt8) (buf_size : Nat) (regions : List region_t) : Prop :=
  ∃ messages piece, (∀ message ∈ messages, f.IsMessage message) ∧ messages.flatten ++ piece = buf.take buf_size ∧
    ((piece.length = 1 ∧ (messages = [] ∨ f.LastExact messages) ∧ regions = consecutive_regions 0 messages) ∨
      (2 ≤ piece.length ∧ f.NearlyOne piece ∧ regions = consecutive_regions 0 (messages ++ [piece])))

/-- `message` reads the rest of a message of the format. -/
def Reads (message : Split → Split) (buf : List UInt8) (buf_size : Nat) : Prop :=
  ∀ messages s, f.AtMessage buf buf_size messages s → s.byte_count < buf_size → s.mem_count = f.header →
    ∃ piece, f.AtEnd buf buf_size messages piece s (message (s.read buf))

variable {f} {message : Split → Split} {buf : List UInt8} {buf_size : Nat} {messages : List (List UInt8)}
  {piece : List UInt8} {s t : Split}

theorem lastExact_concat : f.LastExact (messages ++ [piece]) ↔ f.Exact piece := by
  simp [LastExact]

theorem ne_nil_of_isMessage (h : f.IsMessage piece) : piece ≠ [] :=
  List.ne_nil_of_length_pos (Nat.lt_of_lt_of_le (Nat.lt_of_lt_of_le Nat.zero_lt_two f.two_le) (f.long piece h))

theorem at_message_start (hpos : 0 < buf_size) : f.AtMessage buf buf_size [] .start where
  toCutInto := .start
  ended := fun _ hfalse => by cases hfalse
  mem_count := Nat.zero_le _
  within := Nat.zero_le _
  stray := fun hone => ⟨Nat.le_antisymm hpos hone, Or.inl rfl⟩

theorem AtMessage.next (h : f.AtMessage buf buf_size messages s) (hin : s.byte_count < buf_size) (hsize : buf_size ≤ buf.length)
    (hshort : s.mem_count < f.header) (hlast : s.cur_end + 1 ≠ buf_size - 1) :
    f.AtMessage buf buf_size messages (s.read buf).next := by
  refine ⟨h.next_read (Nat.lt_of_lt_of_le hin hsize), h.ended, hshort, hin, fun hone => ?_⟩
  change buf_size ≤ s.byte_count + 1 + 1 at hone
  change s.byte_count + 1 + 1 = buf_size + (s.mem_count + 1) ∧ _
  rw [h.cur_end] at hlast
  obtain ⟨hstray, hends⟩ := h.stray (by omega)
  exact ⟨congrArg (· + 1) hstray, hends⟩

/-- The last byte but one is within the first bytes of a message. -/
theorem AtMessage.found_short (h : f.AtMessage buf buf_size messages s) (hin : s.byte_count < buf_size)
    (hsize : buf_size ≤ buf.length) (hshort : s.mem_count < f.header) (hlast : s.cur_end + 1 = buf_size - 1) :
    f.Found buf buf_size (s.regions ++ [.fresh s.cur_start (s.cur_end + 1 : Nat)]) := by
  rw [h.cur_end] at hlast ⊢
  have hcut := h.next_read (Nat.lt_of_lt_of_le hin hsize)
  have hall : s.byte_count + 1 + 1 = buf_size := by omega
  have htext := hcut.text_read (show s.byte_count + 1 < buf.length by omega)
  have hlength : (s.read buf).next.line.length = s.mem_count + 1 := Reader.length_line _
  generalize hrest : (s.read buf).next.line ++ [buf[(s.read buf).next.byte_count]?.getD 0] = rest at htext
  have hrestlength : rest.length = s.mem_count + 2 := by
    rw [← hrest, List.length_append, hlength, List.length_singleton]
  change messages.flatten ++ rest = buf.take (s.byte_count + 1 + 1) at htext
  rw [h.regions_snoc htext (by omega)]
  rw [hall] at htext
  refine ⟨messages, rest, h.ended, htext, Or.inr ⟨by omega, fun w r hw heq => ?_, rfl⟩⟩
  have hsum := congrArg List.length heq
  rw [List.length_append] at hsum
  by_cases hexact : f.Exact w
  · have hlong := f.exact_long w hexact
    exact Or.inl (List.eq_nil_of_length_eq_zero (by omega))
  · have hlong := f.long w hw
    exact Or.inr ⟨hexact, by omega⟩

theorem AtEnd.end_request (hend : f.AtEnd buf buf_size messages piece s t) (h : f.AtMessage buf buf_size messages s)
    (hsize : buf_size ≤ buf.length) (hmore : t.byte_count < buf_size) :
    f.AtMessage buf buf_size (messages ++ [piece]) t.end_request := by
  obtain ⟨hmessage, hexact⟩ := hend.message hmore
  exact ⟨h.toCutInto.end_request hend.text (Nat.le_trans hend.within hsize) hend.cur_start hend.cur_end hend.regions,
    List.forall_mem_append.mpr ⟨h.ended, List.forall_mem_singleton.mpr hmessage⟩, Nat.zero_le _, hend.within,
    fun hone => ⟨Nat.le_antisymm hmore hone, Or.inr (lastExact_concat.mpr (hexact hone))⟩⟩

/-- One that goes up to the end of the buffer is the last piece. -/
theorem AtEnd.found (hend : f.AtEnd buf buf_size messages piece s t) (h : f.AtMessage buf buf_size messages s)
    (hsize : buf_size ≤ buf.length) (hall : t.byte_count = buf_size) : f.Found buf buf_size (t.regions ++ [t.region]) := by
  have htext := hend.text
  rw [← hend.cur_end] at htext
  rw [Split.region, hend.cur_start, hend.regions, h.regions_snoc htext (by have := hend.cur_end; omega)]
  exact ⟨messages, piece, h.ended, hall ▸ hend.text, Or.inr ⟨hend.long, hend.whole hall, rfl⟩⟩

/-- The round that breaks the loop. -/
theorem AtMessage.last (h : f.AtMessage buf buf_size messages s) (hin : s.byte_count < buf_size) (hsize : buf_size ≤ buf.length)
    (hbody : framed_body f.header message buf buf_size s = .done t) : f.Found buf buf_size t.regions := by
  rw [framed_body] at hbody
  dsimp only at hbody
  split at hbody
  · cases hbody
  · rename_i hshort
    split at hbody
    · rename_i hlast
      cases hbody
      exact h.found_short hin hsize (Nat.lt_of_not_le hshort) hlast
    · cases hbody

/-- Any other round leads to the head of the loop again, or has read the whole buffer. -/
theorem AtMessage.step (h : f.AtMessage buf buf_size messages s) (hreads : f.Reads message buf buf_size)
    (hin : s.byte_count < buf_size) (hsize : buf_size ≤ buf.length)
    (hbody : framed_body f.header message buf buf_size s = .yield t) :
    (∃ messages, f.AtMessage buf buf_size messages t) ∨ (buf_size ≤ t.byte_count ∧ f.Found buf buf_size t.regions) := by
  rw [framed_body] at hbody
  dsimp only at hbody
  split at hbody
  · rename_i hlong
    obtain ⟨piece, hend⟩ := hreads messages s h hin (Nat.le_antisymm h.mem_count hlong)
    have hat := hend.cur_end
    cases hbody
    split
    · exact Or.inl ⟨_, hend.end_request h hsize (by omega)⟩
    · have hall : (message (s.read buf)).byte_count = buf_size := by
        have hwithin := hend.within
        omega
      exact Or.inr ⟨Nat.le_of_eq hall.symm, hend.found h hsize hall⟩
  · rename_i hshort
    split at hbody
    · cases hbody
    · rename_i hnot
      cases hbody
      exact Or.inl ⟨messages, h.next hin hsize (Nat.lt_of_not_le hshort) hnot⟩

/-- All bytes have been read: the one behind the last message is left over. -/
theorem AtMessage.found_none (h : f.AtMessage buf buf_size messages s) (hall : s.byte_count = buf_size) :
    f.Found buf buf_size s.regions := by
  obtain ⟨hone, hends⟩ := h.stray (by omega)
  have hline : s.line.length = 1 := by
    rw [s.toReader.length_line]
    omega
  exact ⟨messages, s.line, h.ended, hall ▸ h.text, Or.inl ⟨hline, hends, h.regions⟩⟩

/-- What the loop finds in any buffer that is not empty. -/
theorem framed_loop_exit (hheader : 0 < f.header) (hmessage : ReadsRest f.header message buf buf_size)
    (hreads : f.Reads message buf buf_size) (hpos : 0 < buf_size) (hsize : buf_size ≤ buf.length) :
    f.Found buf buf_size ((framed_loop f.header message buf buf_size hheader hmessage).exit ⟨.start, level_start⟩).val.regions := by
  refine Loop.guarded_exit_rule
    (J := fun s => (∃ messages, f.AtMessage buf buf_size messages s) ∨ (buf_size ≤ s.byte_count ∧ f.Found buf buf_size s.regions))
    (Q := fun s => f.Found buf buf_size s.regions) (Or.inl ⟨[], at_message_start hpos⟩) ?_ ?_ ?_
  · rintro s (⟨messages, h⟩ | ⟨_, hfound⟩) hstop
    · have hout : ¬ s.byte_count < buf_size := of_decide_eq_false hstop
      exact h.found_none (Nat.le_antisymm h.within (Nat.not_lt.mp hout))
    · exact hfound
  · rintro s t (⟨messages, h⟩ | ⟨hover, _⟩) hmore hbody
    · exact h.last (of_decide_eq_true hmore) hsize hbody
    · exact absurd (of_decide_eq_true hmore) (Nat.not_lt_of_le hover)
  · rintro s t (⟨messages, h⟩ | ⟨hover, _⟩) hmore hbody
    · exact h.step hreads (of_decide_eq_true hmore) hsize hbody
    · exact absurd (of_decide_eq_true hmore) (Nat.not_lt_of_le hover)

/-- The text with the next `k` bytes. -/
theorem AtMessage.text_take (h : f.AtMessage buf buf_size messages s) (k : Nat) :
    messages.flatten ++ (s.line ++ (buf.drop s.byte_count).take k) = buf.take (s.byte_count + k) := by
  rw [List.take_add, ← h.text, List.append_assoc]

theorem length_line_take (s : Split) (hsize : buf_size ≤ buf.length) {k : Nat} (hk : s.byte_count + k ≤ buf_size) :
    (s.line ++ (buf.drop s.byte_count).take k).length = s.mem_count + k := by
  rw [List.length_append, List.length_take, List.length_drop, s.toReader.length_line]
  omega

/-- A message that is skipped up to its end, `n` bytes behind its first ones. -/
theorem AtMessage.at_end_skip (h : f.AtMessage buf buf_size messages s) (hin : s.byte_count < buf_size)
    (hsize : buf_size ≤ buf.length) (hheader : s.mem_count = f.header) {n : Nat}
    (hmessage : ∀ piece, s.line <+: piece → piece.length = f.header + n → f.IsMessage piece)
    (hwords : ∀ w, f.IsMessage w → s.line <+: w → w.length = f.header + n ∧ ¬ f.Exact w) :
    ∃ piece, f.AtEnd buf buf_size messages piece s ((s.read buf).skip_rest buf_size n) := by
  have hlength : s.line.length = f.header := s.toReader.length_line.trans hheader
  have hend := h.cur_end
  have htwo := f.two_le
  have hstart := h.length_line (Nat.le_trans (Nat.le_of_lt hin) hsize)
  rcases Nat.lt_or_ge (s.byte_count + 1 + n) buf_size with hfits | hends
  · rw [Split.skip_rest_of_lt hfits]
    have hbyte : ((s.read buf).advance n).step_back.byte_count = s.byte_count + n := by
      change s.byte_count + 1 + n - 1 = _
      omega
    have hlength' := length_line_take s hsize (k := n) (by omega)
    rw [hheader] at hlength'
    refine ⟨_, hbyte ▸ h.text_take n, by omega, by omega, rfl, ?_, rfl, fun _ => ⟨?_, fun hone => by omega⟩, fun hall => by omega⟩
    · rw [hbyte]
      change s.cur_end + n - 1 + 1 = _
      omega
    · exact hmessage _ (List.prefix_append ..) hlength'
  · rw [Split.skip_rest_of_le hends]
    have hbyte : ((s.read buf).advance (buf_size - (s.read buf).byte_count)).byte_count = buf_size := by
      change s.byte_count + 1 + (buf_size - (s.byte_count + 1)) = _
      omega
    have hlength' := length_line_take s hsize (k := buf_size - s.byte_count) (by omega)
    rw [hheader] at hlength'
    refine ⟨s.line ++ (buf.drop s.byte_count).take (buf_size - s.byte_count), ?_, by omega, Nat.le_of_eq hbyte, rfl, ?_, rfl,
      fun hmore => by omega, fun _ w r hw heq => ?_⟩
    · rw [hbyte, h.text_take, Nat.add_sub_cancel' (Nat.le_of_lt hin)]
    · rw [hbyte]
      change s.cur_end + (buf_size - (s.byte_count + 1)) + 1 = _
      omega
    · have hline : s.line <+: w := by
        refine List.prefix_of_prefix_length_le (List.prefix_append ..) ⟨r, heq.symm⟩ ?_
        rw [hlength]
        exact f.long w hw
      obtain ⟨hw', hexact⟩ := hwords w hw hline
      rw [heq, List.length_append] at hlength'
      exact Or.inr ⟨hexact, by omega⟩

/-- The regions of a buffer of whole messages are the messages. -/
theorem Found.eq_messages {regions : List region_t} (h : f.Found buf buf_size regions) (hne : messages ≠ [])
    (hmessages : ∀ message ∈ messages, f.IsMessage message) (htext : buf.take buf_size = messages.flatten) :
    regions_or_whole regions buf_size = consecutive_regions 0 messages := by
  obtain ⟨found, piece, hfound, hcut, hcases⟩ := h
  obtain ⟨more, rfl, rfl⟩ := f.prefixFree.exists_rest (fun _ => ne_nil_of_isMessage) hfound hmessages (hcut.trans htext)
  have hlong : ∀ message ∈ more, 2 ≤ message.length := fun message hmessage =>
    Nat.le_trans f.two_le (f.long message (hmessages message (List.mem_append_right _ hmessage)))
  rcases hcases with ⟨hone, _⟩ | ⟨htwo, hnearly, rfl⟩
  · cases more with
    | nil => cases hone
    | cons first more =>
      have hfirst := hlong first (List.mem_cons_self ..)
      rw [List.flatten_cons, List.length_append] at hone
      omega
  · cases more with
    | nil => cases htwo
    | cons first more =>
      have hnil : more = [] := by
        cases more with
        | nil => rfl
        | cons second more =>
          have hsecond := hlong second (by simp)
          rcases hnearly first _ (hmessages first (by simp)) (List.flatten_cons ..) with hnil | ⟨_, hshort⟩
          · rw [List.flatten_cons] at hnil
            rw [(List.append_eq_nil_iff.mp hnil).1] at hsecond
            cases hsecond
          · rw [List.flatten_cons, List.length_append] at hshort
            omega
      subst hnil
      rw [List.flatten_singleton]
      exact regions_or_whole_eq (consecutive_regions_ne_nil hne) buf_size

/-- No byte is lost if no message is exact. -/
theorem Found.covers {regions : List region_t} (h : f.Found buf buf_size regions) (hexact : ∀ message, ¬ f.Exact message)
    (hpos : 0 < buf_size) (hsize : buf_size ≤ buf.length) : Covers (regions_or_whole regions buf_size) buf_size := by
  obtain ⟨messages, piece, hmessages, htext, ⟨hone, hlast, rfl⟩ | ⟨htwo, _, rfl⟩⟩ := h
  · rcases hlast with rfl | ⟨message, _, hfalse⟩
    · have hlength := congrArg List.length htext
      rw [List.flatten_nil, List.nil_append, hone, List.length_take, Nat.min_eq_left hsize] at hlength
      subst hlength
      exact covers_whole
    · exact absurd hfalse (hexact message)
  · refine covers_of_pieces ?_ ?_ hpos
    · exact List.forall_mem_append.mpr ⟨fun message hmessage => ne_nil_of_isMessage (hmessages message hmessage),
        List.forall_mem_singleton.mpr (List.ne_nil_of_length_pos (Nat.lt_of_lt_of_le Nat.zero_lt_two htwo))⟩
    · rw [List.flatten_append, List.flatten_singleton, htext, List.length_take, Nat.min_eq_left hsize]

end Format

end aflnet
