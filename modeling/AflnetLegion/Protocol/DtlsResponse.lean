import AflnetLegion.Protocol.Dtls

namespace aflnet

/-- The types of a record that tells none. -/
def UNKNOWN_CONTENT_TYPE : UInt8 := 0xFF

def UNKNOWN_MESSAGE_TYPE : UInt8 := 0xFF

def MALFORMED_MESSAGE_TYPE : UInt8 := 0xFE

/-- A number in network byte order. The offset is an unsigned int, and the sum of it and the
index can wrap. -/
def read_bytes_to_uint32 (buf : List UInt8) (offset : UInt32) (num_bytes : Nat) : Traced Nat UInt32 :=
  (List.range num_bytes).foldlM
    (fun val i => do
      let byte ← read_byte buf (UInt32.ofNat i + offset).toNat
      pure (val <<< 8 + byte.toUInt32)) 0

/-- The state of the extractor of DTLS response codes. The position is an unsigned int, so a
record can take the loop back. -/
structure DtlsScan where
  byte_count : UInt32
  state_sequence : List UInt32

/-- Before the first round there is the initial state. -/
def DtlsScan.start : DtlsScan := { byte_count := 0, state_sequence := [0] }

section message_type

variable (buf : List UInt8) (byte_count record_length : UInt32)

/-- A handshake message that is not encrypted tells its length. If that is not the length of the
record, the type is taken to be unknown. -/
def hs_message_type : Traced Nat UInt8 := do
  let hs_msg_type ← read_byte buf (byte_count + 13).toNat
  if record_length ≥ 12 then
    let frag_length ← read_bytes_to_uint32 buf (byte_count + 22) 3
    if record_length - frag_length = 12 then pure hs_msg_type else pure UNKNOWN_MESSAGE_TYPE
  else pure MALFORMED_MESSAGE_TYPE

/-- The message type of a change of the cipher: its single byte. Several bytes are taken for an
encrypted message. -/
def ccs_message_type : Traced Nat UInt8 :=
  if record_length = 1 then read_byte buf (byte_count + 13).toNat
  else if record_length > 1 then pure UNKNOWN_MESSAGE_TYPE
  else pure MALFORMED_MESSAGE_TYPE

/-- The message type of an alert: the second of its two bytes. More bytes are taken for an
encrypted message. -/
def alert_message_type : Traced Nat UInt8 :=
  if record_length = 2 then read_byte buf (byte_count + 14).toNat
  else if record_length > 2 then pure UNKNOWN_MESSAGE_TYPE
  else pure MALFORMED_MESSAGE_TYPE

/-- The content type and the message type of a record that is taken for a whole one. What the
type of the message is depends on the content, and can be that it is unknown or malformed. -/
def record_types (content_type : UInt8) : Traced Nat (UInt8 × UInt8) := do
  if content_type = HS_CONTENT_TYPE then
    let message_type ← hs_message_type buf byte_count record_length
    pure (content_type, message_type)
  else if content_type = CCS_CONTENT_TYPE then
    let message_type ← ccs_message_type buf byte_count record_length
    pure (content_type, message_type)
  else if content_type = ALERT_CONTENT_TYPE then
    let message_type ← alert_message_type buf byte_count record_length
    pure (content_type, message_type)
  else if content_type = APPLICATION_CONTENT_TYPE then pure (content_type, UNKNOWN_MESSAGE_TYPE)
  else if content_type = HEARTBEAT_CONTENT_TYPE then
    pure (content_type, if record_length ≥ 3 then UNKNOWN_MESSAGE_TYPE else MALFORMED_MESSAGE_TYPE)
  else pure (UNKNOWN_CONTENT_TYPE, UNKNOWN_MESSAGE_TYPE)

end message_type

/-- Whether the first bytes are those of a record's header, and there are more than a header
has. Only here is the size of the buffer compared with the position. -/
def starts_header (buf : List UInt8) (buf_size byte_count : UInt32) : Traced Nat Bool :=
  if buf_size - byte_count > 13 then starts_record buf byte_count.toNat else pure false

/-- A record that exceeds the buffer is malformed: but an unsigned difference is never below 0. -/
def checked_types (buf : List UInt8) (buf_size byte_count record_length : UInt32) (content_type : UInt8) :
    Traced Nat (UInt8 × UInt8) :=
  if buf_size - byte_count - 13 - record_length < 0 then pure (content_type, MALFORMED_MESSAGE_TYPE)
  else record_types buf byte_count record_length content_type

/-- The status code and the length of the record at `byte_count`. The length is read before
anything is known about what is behind the header. -/
def read_record (buf : List UInt8) (buf_size byte_count : UInt32) : Traced Nat (UInt32 × UInt32) := do
  let content_type ← read_byte buf byte_count.toNat
  let record_length ← read_bytes_to_uint32 buf (byte_count + 11) 2
  let types ← checked_types buf buf_size byte_count record_length content_type
  pure ((types.1.toUInt32 <<< 8) + types.2.toUInt32, record_length)

/-- The loop's body: a record makes a code and is passed over by the length it announces, which
does not count the header. Any other byte is passed over by itself. -/
def dtls_response_body (buf : List UInt8) (buf_size : UInt32) (s : DtlsScan) : Traced Nat (ForInStep DtlsScan) := do
  if ← starts_header buf buf_size s.byte_count then
    let record ← read_record buf buf_size s.byte_count
    pure (.yield { byte_count := s.byte_count + record.2, state_sequence := s.state_sequence ++ [record.1] })
  else pure (.yield { s with byte_count := s.byte_count + 1 })

/-- The loop, with the bytes that it reads. -/
def dtls_response_while (buf : List UInt8) (buf_size : UInt32) : While Nat DtlsScan where
  more := fun s => s.byte_count < buf_size
  body := dtls_response_body buf buf_size

/-- The codes found in so many rounds of the loop, which need not end. The codes of a loop that
ends are those of enough rounds. -/
def extract_response_codes_dtls12 (buf : List UInt8) (buf_size : UInt32) (rounds : Nat) : List UInt32 :=
  ((dtls_response_while buf buf_size).after rounds .start).state_sequence

section dtls_response_body

variable {buf : List UInt8} {buf_size byte_count : UInt32} {s t : DtlsScan}

/-- The check for a record that exceeds the buffer never takes effect. -/
theorem checked_types_eq (record_length : UInt32) (content_type : UInt8) :
    checked_types buf buf_size byte_count record_length content_type = record_types buf byte_count record_length content_type :=
  if_neg UInt32.not_lt_zero

/-- A header is found at `byte_count`. -/
def AtHeader (buf : List UInt8) (buf_size byte_count : UInt32) : Prop := (starts_header buf buf_size byte_count).value = true

/-- The length that the header at `byte_count` announces. -/
def record_length (buf : List UInt8) (byte_count : UInt32) : UInt32 := (read_bytes_to_uint32 buf (byte_count + 11) 2).value

instance : Decidable (AtHeader buf buf_size byte_count) := inferInstanceAs (Decidable (_ = true))

theorem read_record_length (byte_count : UInt32) :
    (read_record buf buf_size byte_count).value.2 = record_length buf byte_count := by
  simp only [read_record, Traced.value_bind, Traced.value_pure, record_length]

/-- A round that finds a header adds a code and goes on by the length of the record. -/
theorem dtls_response_body_of_header (h : AtHeader buf buf_size s.byte_count) : (dtls_response_body buf buf_size s).value =
    .yield { byte_count := s.byte_count + record_length buf s.byte_count, state_sequence :=
      s.state_sequence ++ [(read_record buf buf_size s.byte_count).value.1] } := by
  rw [dtls_response_body, Traced.value_bind, h, if_pos rfl, Traced.value_bind, Traced.value_pure, read_record_length]

theorem dtls_response_body_of_not (h : ¬ AtHeader buf buf_size s.byte_count) :
    (dtls_response_body buf buf_size s).value = .yield { s with byte_count := s.byte_count + 1 } := by
  rw [dtls_response_body, Traced.value_bind, Bool.eq_false_iff.mpr h]
  rfl

end dtls_response_body

section termination

variable {buf : List UInt8} {buf_size : UInt32}

/-- A sum of unsigned numbers is greater than the first of them unless the second is 0 or the
sum wraps. -/
theorem lt_add_iff {a b : UInt32} : a < a + b ↔ 0 < b ∧ a.toNat + b.toNat < 2 ^ 32 := by
  have ha := a.toNat_lt
  have hb := b.toNat_lt
  simp only [UInt32.lt_iff_toNat_lt, UInt32.toNat_add, UInt32.toNat_zero]
  omega

/-- A round goes on unless it finds a record of length 0, or one whose end wraps around. -/
theorem dtls_response_body_advances_iff {s : DtlsScan} (hmore : s.byte_count < buf_size) :
    (∀ t, (dtls_response_body buf buf_size s).value = .yield t → s.byte_count < t.byte_count) ↔
      (AtHeader buf buf_size s.byte_count → 0 < record_length buf s.byte_count ∧
        s.byte_count.toNat + (record_length buf s.byte_count).toNat < 2 ^ 32) := by
  by_cases hheader : AtHeader buf buf_size s.byte_count
  · rw [dtls_response_body_of_header hheader, ← lt_add_iff]
    exact ⟨fun h _ => h _ rfl, fun h t ht => by cases ht; exact h hheader⟩
  · rw [dtls_response_body_of_not hheader]
    refine ⟨fun _ hfalse => absurd hfalse hheader, fun _ t ht => ?_⟩
    cases ht
    refine lt_add_iff.mpr ⟨by decide, ?_⟩
    have hlt := UInt32.lt_iff_toNat_lt.mp hmore
    have hsize := buf_size.toNat_lt
    change s.byte_count.toNat + 1 < _
    omega

/-- The loop ends, and every round goes on, if and only if every record it finds has a length
above 0 and an end below 2^32. Otherwise a record of length 0 is read for ever, or the position
wraps. -/
theorem dtls_response_ends_iff (buf : List UInt8) (buf_size : UInt32) :
    ((∃ t, (dtls_response_while buf buf_size).Ends .start t) ∧ (dtls_response_while buf buf_size).EveryRound .start fun s =>
      ∀ t, (dtls_response_body buf buf_size s).value = .yield t → s.byte_count < t.byte_count) ↔
    (dtls_response_while buf buf_size).EveryRound .start fun s => AtHeader buf buf_size s.byte_count →
      0 < record_length buf s.byte_count ∧ s.byte_count.toNat + (record_length buf s.byte_count).toNat < 2 ^ 32 := by
  have hrounds : ∀ s, (dtls_response_while buf buf_size).more s = true → s.byte_count < buf_size := fun s => of_decide_eq_true
  constructor
  · rintro ⟨_, hadvance⟩ s hs hmore
    exact (dtls_response_body_advances_iff (hrounds s hmore)).mp (hadvance s hs hmore)
  · intro h
    have hadvance : (dtls_response_while buf buf_size).EveryRound .start fun s =>
        ∀ t, (dtls_response_body buf buf_size s).value = .yield t → s.byte_count < t.byte_count :=
      fun s hs hmore => (dtls_response_body_advances_iff (hrounds s hmore)).mpr (h s hs hmore)
    refine ⟨While.ends_of_measure (fun s => buf_size.toNat - s.byte_count.toNat) fun s hs hmore t ht => ?_, hadvance⟩
    have hlt := UInt32.lt_iff_toNat_lt.mp (hadvance s hs hmore t ht)
    have hin := UInt32.lt_iff_toNat_lt.mp (hrounds s hmore)
    omega

/-- A record of length 0. -/
def empty_record : List UInt8 := [0x17, 0xFE, 0xFD, 0, 0, 0, 0, 0, 0, 0, 0, 0, 0, 1]

/-- The loop stays at a record of length 0. -/
theorem empty_record_never_ends : ¬ ∃ t, (dtls_response_while empty_record 14).Ends .start t := by
  rintro ⟨t, hends⟩
  refine While.not_ends (P := fun s : DtlsScan => s.byte_count = 0) rfl ?_ hends
  rintro ⟨byte_count, state_sequence⟩ hzero
  obtain rfl : byte_count = 0 := hzero
  have hheader : AtHeader empty_record 14 0 := by decide
  have hlength : record_length empty_record 0 = 0 := by decide
  refine ⟨rfl, _, dtls_response_body_of_header hheader, ?_⟩
  rw [hlength]
  rfl

end termination

section reads

variable {buf : List UInt8} {buf_size byte_count rl offset : UInt32} {content_type : UInt8} {num_bytes : Nat}

theorem reads_read_bytes_to_uint32 : (read_bytes_to_uint32 buf offset num_bytes).reads =
    (List.range num_bytes).map fun i => (UInt32.ofNat i + offset).toNat := by
  suffices h : ∀ (l : List Nat) (val : UInt32), (l.foldlM (fun val i => do
      let byte ← read_byte buf (UInt32.ofNat i + offset).toNat
      pure (val <<< 8 + byte.toUInt32)) val : Traced Nat UInt32).reads = l.map fun i => (UInt32.ofNat i + offset).toNat from
    h (List.range num_bytes) 0
  intro l
  induction l with
  | nil => exact fun _ => rfl
  | cons i l ih =>
    intro val
    rw [List.foldlM_cons, Traced.reads_bind, ih]
    rfl

/-- What is read of a handshake message: its first byte, and its length if the record has room
for it. -/
theorem reads_hs_message_type : (hs_message_type buf byte_count rl).reads =
    (byte_count + 13).toNat :: if rl ≥ 12 then (read_bytes_to_uint32 buf (byte_count + 22) 3).reads else [] := by
  rw [hs_message_type, Traced.reads_bind]
  split
  · rw [Traced.reads_bind]
    split <;> simp
  · rfl

theorem reads_ccs_message_type : (ccs_message_type buf byte_count rl).reads = if rl = 1 then [(byte_count + 13).toNat] else [] := by
  rw [ccs_message_type]
  split
  · rfl
  · split <;> rfl

theorem reads_alert_message_type :
    (alert_message_type buf byte_count rl).reads = if rl = 2 then [(byte_count + 14).toNat] else [] := by
  rw [alert_message_type]
  split
  · rfl
  · split <;> rfl

/-- What is read of a record behind its header depends on its content type. -/
theorem reads_record_types : (record_types buf byte_count rl content_type).reads =
    if content_type = HS_CONTENT_TYPE then (hs_message_type buf byte_count rl).reads
    else if content_type = CCS_CONTENT_TYPE then (ccs_message_type buf byte_count rl).reads
    else if content_type = ALERT_CONTENT_TYPE then (alert_message_type buf byte_count rl).reads
    else [] := by
  rw [record_types]
  simp only [apply_ite Traced.reads, Traced.reads_bind, Traced.reads_pure, List.append_nil, ite_self]

/-- A round reads the first bytes of a header, and the record only if there is one. -/
theorem reads_dtls_response_body (s : DtlsScan) : (dtls_response_body buf buf_size s).reads =
    (starts_header buf buf_size s.byte_count).reads ++
      if AtHeader buf buf_size s.byte_count then (read_record buf buf_size s.byte_count).reads else [] := by
  rw [dtls_response_body, Traced.reads_bind]
  by_cases hheader : AtHeader buf buf_size s.byte_count
  · rw [if_pos hheader, if_pos (show (starts_header buf buf_size s.byte_count).value = true from hheader), Traced.reads_bind,
      Traced.reads_pure, List.append_nil]
  · rw [if_neg hheader, if_neg (show ¬ (starts_header buf buf_size s.byte_count).value = true from hheader),
      Traced.reads_pure]

/-- A record is read from its content type on, over the length to what its types depend on. -/
theorem reads_read_record : (read_record buf buf_size byte_count).reads =
    byte_count.toNat :: ((read_bytes_to_uint32 buf (byte_count + 11) 2).reads ++
      (record_types buf byte_count (record_length buf byte_count) (byte_at buf byte_count)).reads) := by
  rw [read_record, Traced.reads_bind, Traced.reads_bind, Traced.reads_bind, checked_types_eq]
  simp [byte_at, record_length]

/-- Reads that do not wrap around. -/
theorem reads_read_bytes_of_lt (h : offset.toNat + num_bytes < 2 ^ 32) :
    (read_bytes_to_uint32 buf offset num_bytes).reads = List.range' offset.toNat num_bytes := by
  rw [reads_read_bytes_to_uint32, List.range'_eq_map_range]
  refine List.map_congr_left fun i hi => ?_
  have hlt := List.mem_range.mp hi
  have hi' : (UInt32.ofNat i).toNat = i := UInt32.toNat_ofNat_of_lt' (show i < 2 ^ 32 by omega)
  rw [toNat_add_of_lt (by omega), hi', Nat.add_comm]

/-- A record that fits is read within its body, or in the first byte behind its header. -/
theorem lt_of_mem_reads_record_types {i n : Nat} (hn : n < 2 ^ 32) (hheader : byte_count.toNat + 13 < n)
    (hfits : byte_count.toNat + 13 + rl.toNat ≤ n) (hi : i ∈ (record_types buf byte_count rl content_type).reads) : i < n := by
  have hfirst : (byte_count + 13).toNat = byte_count.toNat + 13 := toNat_add_of_lt (show byte_count.toNat + 13 < 2 ^ 32 by omega)
  rw [reads_record_types, reads_hs_message_type, reads_ccs_message_type, reads_alert_message_type] at hi
  split at hi
  · rcases List.mem_cons.mp hi with rfl | hi
    · omega
    · split at hi
      · rename_i htwelve
        have hrl : 12 ≤ rl.toNat := UInt32.le_iff_toNat_le.mp htwelve
        have hfrag : (byte_count + 22).toNat = byte_count.toNat + 22 :=
          toNat_add_of_lt (show byte_count.toNat + 22 < 2 ^ 32 by omega)
        rw [reads_read_bytes_of_lt (by omega), List.mem_range'_1] at hi
        omega
      · cases hi
  · split at hi
    · split at hi
      · rw [List.mem_singleton.mp hi]
        omega
      · cases hi
    · split at hi
      · split at hi
        · rename_i htwo
          have hrl : rl.toNat = 2 := congrArg UInt32.toNat htwo
          have hsecond : (byte_count + 14).toNat = byte_count.toNat + 14 :=
            toNat_add_of_lt (show byte_count.toNat + 14 < 2 ^ 32 by omega)
          rw [List.mem_singleton.mp hi]
          omega
        · cases hi
      · cases hi

/-- The record at `byte_count` exceeds the buffer. -/
def Overlong (buf : List UInt8) (buf_size byte_count : UInt32) : Prop :=
  buf_size.toNat < byte_count.toNat + 13 + (record_length buf byte_count).toNat

/-- A round that reads in the buffer, and takes a record that exceeds the buffer for a malformed one before
it reads its body. -/
structure RoundInBounds (buf : List UInt8) (buf_size : UInt32) (s : DtlsScan) : Prop where
  reads : ∀ i ∈ (dtls_response_body buf buf_size s).reads, i < buf_size.toNat
  malformed : AtHeader buf buf_size s.byte_count → Overlong buf buf_size s.byte_count →
    (read_record buf buf_size s.byte_count).value.1 =
      (byte_at buf s.byte_count).toUInt32 <<< 8 + MALFORMED_MESSAGE_TYPE.toUInt32 ∧
    ∀ i ∈ (dtls_response_body buf buf_size s).reads, i < s.byte_count.toNat + 13

theorem atHeader_iff : AtHeader buf buf_size byte_count ↔
    13 < buf_size - byte_count ∧ (starts_record buf byte_count.toNat).value = true := by
  rw [AtHeader, starts_header]
  split
  · rename_i hlong
    exact ⟨fun h => ⟨hlong, h⟩, fun h => h.2⟩
  · rename_i hshort
    exact ⟨fun h => absurd h Bool.false_ne_true, fun h => absurd h.1 hshort⟩

/-- The header is in the buffer then, and no position within it wraps. -/
theorem toNat_lt_of_lt_sub (hin : byte_count < buf_size) (h : 13 < buf_size - byte_count) :
    byte_count.toNat + 13 < buf_size.toNat := by
  have hlt := UInt32.lt_iff_toNat_lt.mp h
  rw [UInt32.toNat_sub_of_le _ _ (UInt32.le_of_lt hin)] at hlt
  change 13 < _ at hlt
  omega

/-- What is read before the types of a record are. -/
theorem lt_of_mem_reads_header {i : Nat} (hin : byte_count < buf_size)
    (hi : i ∈ (starts_header buf buf_size byte_count).reads) : i < byte_count.toNat + 13 ∧ i < buf_size.toNat := by
  rw [starts_header] at hi
  split at hi
  · rename_i hlong
    have hlt := toNat_lt_of_lt_sub hin hlong
    rw [reads_starts_record] at hi
    split at hi
    · simp only [List.mem_cons, List.not_mem_nil, or_false] at hi
      omega
    · simp only [List.mem_cons, List.not_mem_nil, or_false] at hi
      omega
  · cases hi

theorem known_content_type_cases (h : known_content_type content_type = true) :
    content_type = CCS_CONTENT_TYPE ∨ content_type = ALERT_CONTENT_TYPE ∨ content_type = HS_CONTENT_TYPE ∨
      content_type = APPLICATION_CONTENT_TYPE ∨ content_type = HEARTBEAT_CONTENT_TYPE := by
  obtain ⟨hge, hle⟩ := Bool.and_eq_true_iff.mp h
  have hge' : 0x14 ≤ content_type.toNat := UInt8.le_iff_toNat_le.mp (of_decide_eq_true hge)
  have hle' : content_type.toNat ≤ 0x18 := UInt8.le_iff_toNat_le.mp (of_decide_eq_true hle)
  simp only [← UInt8.toNat_inj]
  change _ = 0x14 ∨ _ = 0x15 ∨ _ = 0x16 ∨ _ = 0x17 ∨ _ = 0x18
  omega

/-- A change of the cipher with two bytes or more is never malformed. -/
theorem ccs_not_malformed (htwo : 2 ≤ rl) :
    (record_types buf byte_count rl CCS_CONTENT_TYPE).value ≠ (CCS_CONTENT_TYPE, MALFORMED_MESSAGE_TYPE) := by
  have hone : rl ≠ 1 := by
    rintro rfl
    exact absurd htwo (by decide)
  have hmore : rl > 1 := UInt32.lt_iff_toNat_lt.mpr (UInt32.le_iff_toNat_le.mp htwo)
  rw [record_types, if_neg (by decide), if_pos rfl, ccs_message_type, if_neg hone, if_pos hmore]
  decide

/-- An alert of two bytes is found malformed by its second byte, and a longer one is not. -/
theorem alert_reads_second (htwo : 2 ≤ rl)
    (h : (record_types buf byte_count rl ALERT_CONTENT_TYPE).value = (ALERT_CONTENT_TYPE, MALFORMED_MESSAGE_TYPE)) :
    (byte_count + 14).toNat ∈ (record_types buf byte_count rl ALERT_CONTENT_TYPE).reads := by
  rw [reads_record_types, if_neg (by decide), if_neg (by decide), if_pos rfl, reads_alert_message_type]
  by_cases hrl : rl = 2
  · rw [if_pos hrl]
    exact List.mem_singleton_self _
  · have hmore : rl > 2 := UInt32.lt_of_le_of_ne htwo (Ne.symm hrl)
    rw [record_types, if_neg (by decide), if_neg (by decide), if_pos rfl, alert_message_type, if_neg hrl, if_pos hmore] at h
    exact absurd h (by decide)

theorem hs_reads_first : (byte_count + 13).toNat ∈ (record_types buf byte_count rl HS_CONTENT_TYPE).reads := by
  rw [reads_record_types, if_pos rfl, reads_hs_message_type]
  exact List.mem_cons_self ..

theorem heartbeat_malformed_iff (htwo : 2 ≤ rl) :
    (record_types buf byte_count rl HEARTBEAT_CONTENT_TYPE).value = (HEARTBEAT_CONTENT_TYPE, MALFORMED_MESSAGE_TYPE) ↔ rl = 2 := by
  change (HEARTBEAT_CONTENT_TYPE, if rl ≥ 3 then UNKNOWN_MESSAGE_TYPE else MALFORMED_MESSAGE_TYPE) = _ ↔ _
  by_cases hrl : rl = 2
  · subst hrl
    exact iff_of_true rfl rfl
  · have hmore : rl ≥ 3 := UInt32.lt_of_le_of_ne htwo (Ne.symm hrl)
    rw [if_pos hmore]
    exact iff_of_false (by decide) hrl

/-- A record of two bytes or more is found malformed without a look at its body only if it is a heartbeat of
two bytes. -/
theorem malformed_record_types_iff (hheader : byte_count.toNat + 14 < 2 ^ 32) (hknown : known_content_type content_type = true)
    (htwo : 2 ≤ rl) : ((record_types buf byte_count rl content_type).value = (content_type, MALFORMED_MESSAGE_TYPE) ∧
      ∀ i ∈ (record_types buf byte_count rl content_type).reads, i < byte_count.toNat + 13) ↔
    content_type = HEARTBEAT_CONTENT_TYPE ∧ rl = 2 := by
  have hfirst : (byte_count + 13).toNat = byte_count.toNat + 13 := toNat_add_of_lt (show byte_count.toNat + 13 < 2 ^ 32 by omega)
  have hsecond : (byte_count + 14).toNat = byte_count.toNat + 14 := toNat_add_of_lt hheader
  rcases known_content_type_cases hknown with rfl | rfl | rfl | rfl | rfl
  · exact iff_of_false (fun h => ccs_not_malformed htwo h.1) fun h => absurd h.1 (by decide)
  · refine iff_of_false (fun h => ?_) fun h => absurd h.1 (by decide)
    have hlt := h.2 _ (alert_reads_second htwo h.1)
    omega
  · refine iff_of_false (fun h => ?_) fun h => absurd h.1 (by decide)
    have hlt := h.2 _ hs_reads_first
    omega
  · refine iff_of_false (fun h => ?_) fun h => absurd h.1 (by decide)
    have hvalue : (APPLICATION_CONTENT_TYPE, UNKNOWN_MESSAGE_TYPE) = (APPLICATION_CONTENT_TYPE, MALFORMED_MESSAGE_TYPE) := h.1
    exact absurd hvalue (by decide)
  · have hreads : (record_types buf byte_count rl HEARTBEAT_CONTENT_TYPE).reads = [] := rfl
    rw [heartbeat_malformed_iff htwo, hreads, and_iff_left (List.forall_mem_nil _), and_iff_right rfl]

/-- The content type that is returned is the one of the header. -/
theorem record_types_fst (hknown : known_content_type content_type = true) :
    (record_types buf byte_count rl content_type).value.1 = content_type := by
  rcases known_content_type_cases hknown with rfl | rfl | rfl | rfl | rfl <;> rfl

theorem code_eq_types : (read_record buf buf_size byte_count).value.1 =
    (record_types buf byte_count (record_length buf byte_count) (byte_at buf byte_count)).value.1.toUInt32 <<< 8 +
      (record_types buf byte_count (record_length buf byte_count) (byte_at buf byte_count)).value.2.toUInt32 :=
  congrArg (fun x : Traced Nat (UInt8 × UInt8) => x.value.1.toUInt32 <<< 8 + x.value.2.toUInt32) (checked_types_eq _ _)

/-- The code of a record tells whether it was found malformed. -/
theorem malformed_code_iff (hknown : known_content_type (byte_at buf byte_count) = true) :
    (read_record buf buf_size byte_count).value.1 =
        (byte_at buf byte_count).toUInt32 <<< 8 + MALFORMED_MESSAGE_TYPE.toUInt32 ↔
      (record_types buf byte_count (record_length buf byte_count) (byte_at buf byte_count)).value =
        (byte_at buf byte_count, MALFORMED_MESSAGE_TYPE) := by
  have hfst := @record_types_fst buf byte_count (record_length buf byte_count) _ hknown
  have hcode := @code_eq_types buf buf_size byte_count
  rw [hfst] at hcode
  rw [hcode, UInt32.add_right_inj, UInt8.toUInt32_inj, Prod.ext_iff]
  exact ⟨fun h => ⟨hfst, h⟩, fun h => h.2⟩

/-- Beyond the header a round reads what the types of the record are told by. -/
theorem forall_mem_reads_iff {s : DtlsScan} {n : Nat} (hin : s.byte_count < buf_size) (hheader : AtHeader buf buf_size s.byte_count)
    (hn : s.byte_count.toNat + 13 ≤ n) : (∀ i ∈ (dtls_response_body buf buf_size s).reads, i < n) ↔
      ∀ i ∈ (record_types buf s.byte_count (record_length buf s.byte_count) (byte_at buf s.byte_count)).reads, i < n := by
  have hsize := buf_size.toNat_lt
  have hlong := toNat_lt_of_lt_sub hin (atHeader_iff.mp hheader).1
  have hlength : (s.byte_count + 11).toNat = s.byte_count.toNat + 11 :=
    toNat_add_of_lt (show s.byte_count.toNat + 11 < 2 ^ 32 by omega)
  rw [reads_dtls_response_body, if_pos hheader, reads_read_record, reads_read_bytes_of_lt (by omega), List.forall_mem_append,
    List.forall_mem_cons, List.forall_mem_append]
  refine ⟨fun h => h.2.2.2, fun h => ⟨fun i hi => ?_, by omega, fun i hi => ?_, h⟩⟩
  · have := lt_of_mem_reads_header hin hi
    omega
  · have := List.mem_range'_1.mp hi
    omega

/-- A round keeps to the buffer if and only if a record that exceeds it is a heartbeat of two bytes. -/
theorem round_in_bounds_iff {s : DtlsScan} (hin : s.byte_count < buf_size) : RoundInBounds buf buf_size s ↔
    (AtHeader buf buf_size s.byte_count → Overlong buf buf_size s.byte_count →
      byte_at buf s.byte_count = HEARTBEAT_CONTENT_TYPE ∧ record_length buf s.byte_count = 2) := by
  have hsize := buf_size.toNat_lt
  by_cases hheader : AtHeader buf buf_size s.byte_count
  · obtain ⟨hlong, hstarts⟩ := atHeader_iff.mp hheader
    have hbody := toNat_lt_of_lt_sub hin hlong
    have hknown : known_content_type (byte_at buf s.byte_count) = true := ((value_starts_record buf _).mp hstarts).1
    by_cases hover : Overlong buf buf_size s.byte_count
    · have htwo : 2 ≤ record_length buf s.byte_count := by
        rw [Overlong] at hover
        exact UInt32.le_iff_toNat_le.mpr (show 2 ≤ (record_length buf s.byte_count).toNat by omega)
      have hrecord := @malformed_record_types_iff buf s.byte_count _ _ (by omega) hknown htwo
      rw [← malformed_code_iff hknown, ← forall_mem_reads_iff hin hheader (Nat.le_refl _)] at hrecord
      rw [forall_prop_of_true hheader, forall_prop_of_true hover, ← hrecord]
      refine ⟨fun h => h.malformed hheader hover, fun h => ⟨fun i hi => ?_, fun _ _ => h⟩⟩
      exact Nat.lt_trans (h.2 i hi) hbody
    · refine iff_of_true ⟨?_, fun _ hfalse => absurd hfalse hover⟩ fun _ hfalse => absurd hfalse hover
      rw [forall_mem_reads_iff hin hheader (Nat.le_of_lt hbody)]
      exact fun i hi => lt_of_mem_reads_record_types hsize hbody (Nat.not_lt.mp hover) hi
  · refine iff_of_true ⟨fun i hi => ?_, fun hfalse => absurd hfalse hheader⟩ fun hfalse => absurd hfalse hheader
    rw [reads_dtls_response_body, if_neg hheader, List.append_nil] at hi
    exact (lt_of_mem_reads_header hin hi).2

end reads

/-- The parsers of DTLS keep to the buffer if and only if its last byte but one is not a content type, and
every record that exceeds it is a heartbeat of two bytes. -/
theorem dtls_in_bounds_iff (buf : List UInt8) (buf_size : UInt32) :
    ((dtls_request_while buf buf_size.toNat).EveryRound .start fun s =>
        ∀ i ∈ (dtls_request_body buf buf_size.toNat s).reads, i < buf_size.toNat) ∧
      (dtls_response_while buf buf_size).EveryRound .start (RoundInBounds buf buf_size) ↔
    ¬ (6 ≤ buf_size.toNat ∧ known_content_type (buf[buf_size.toNat - 2]?.getD 0) = true) ∧
      (dtls_response_while buf buf_size).EveryRound .start fun s =>
        AtHeader buf buf_size s.byte_count → Overlong buf buf_size s.byte_count →
          byte_at buf s.byte_count = HEARTBEAT_CONTENT_TYPE ∧ record_length buf s.byte_count = 2 := by
  refine and_congr dtls_request_while_reads_iff ?_
  refine forall_congr' fun s => forall_congr' fun _ => forall_congr' fun hmore => round_in_bounds_iff (of_decide_eq_true hmore)

/-- A handshake record that announces more bytes than there are. -/
def overlong_record : List UInt8 := [0x16, 0xFE, 0xFD, 0, 0, 0, 0, 0, 0, 0, 0, 0, 12, 1]

theorem overlong_record_overruns :
    ¬ (dtls_response_while overlong_record 14).EveryRound .start (RoundInBounds overlong_record 14) := by
  intro h
  have hin := (h .start (.refl _) rfl).reads 24 (by decide)
  exact absurd hin (by decide)

end aflnet
