import Mathlib.Data.Nat.Find
import AflnetLegion.Protocol.DtlsResponse

namespace aflnet

/-- The length of the fragment that a handshake message announces. -/
def frag_length (payload : List UInt8) : Nat :=
  ((payload[9]?.getD 0).toNat * 256 + (payload[10]?.getD 0).toNat) * 256 + (payload[11]?.getD 0).toNat

/-- The message type that a payload tells, by the content type of its record. It is what the
extractor computes from the bytes in the buffer. -/
def payload_type (content_type : UInt8) (payload : List UInt8) : UInt8 :=
  if content_type = HS_CONTENT_TYPE then
    if payload.length < 12 then MALFORMED_MESSAGE_TYPE
    else if payload.length = 12 + frag_length payload then payload[0]?.getD 0
    else UNKNOWN_MESSAGE_TYPE
  else if content_type = CCS_CONTENT_TYPE then
    if payload.length = 1 then payload[0]?.getD 0 else UNKNOWN_MESSAGE_TYPE
  else if content_type = ALERT_CONTENT_TYPE then
    if payload.length < 2 then MALFORMED_MESSAGE_TYPE
    else if payload.length = 2 then payload[1]?.getD 0
    else UNKNOWN_MESSAGE_TYPE
  else if content_type = HEARTBEAT_CONTENT_TYPE then
    if payload.length < 3 then MALFORMED_MESSAGE_TYPE else UNKNOWN_MESSAGE_TYPE
  else UNKNOWN_MESSAGE_TYPE

/-- The code of a record, from its content type and its payload, which starts with the 14th
byte. -/
def record_code (record : List UInt8) : UInt32 :=
  let content_type : UInt8 := record[0]?.getD 0
  content_type.toUInt32 <<< 8 + (payload_type content_type (record.drop 13)).toUInt32

/-- A whole record: a header of 13 bytes and a payload of the length that the header announces. -/
structure IsDtlsRecord (record : List UInt8) : Prop where
  starts : (starts_record record 0).value = true
  length : record.length = 13 + (record[11]?.getD 0).toNat * 256 + (record[12]?.getD 0).toNat
  long : 14 ≤ record.length

section bytes

variable {buf before record tail : List UInt8} {byte_count : UInt32} {i : Nat}

theorem starts_record_append (before tail : List UInt8) (i : Nat) :
    (starts_record (before ++ tail) (before.length + i)).value = (starts_record tail i).value := by
  rw [Bool.eq_iff_iff, value_starts_record, value_starts_record]
  simp only [Nat.add_assoc, List.getElem?_append_right, Nat.le_add_right, Nat.add_sub_cancel_left]

/-- The header pattern does not go beyond a record that is followed by another one. -/
theorem starts_record_append_iff (hi : i < record.length)
    (htail : i + 2 < record.length ∨ known_content_type (tail[0]?.getD 0) = true) :
    (starts_record (record ++ tail) i).value = true ↔ (starts_record record i).value = true := by
  rw [value_starts_record, value_starts_record, List.getElem?_append_left hi]
  refine and_congr_right fun _ => ?_
  by_cases hlong : i + 2 < record.length
  · rw [List.getElem?_append_left hlong, List.getElem?_append_left (Nat.lt_of_succ_lt hlong)]
  · have hknown := htail.resolve_left hlong
    have hnone : record[i + 2]?.getD (0 : UInt8) = 0 := by
      rw [List.getElem?_eq_none (Nat.not_lt.mp hlong)]
      rfl
    refine iff_of_false ?_ fun h => absurd (hnone.symm.trans h.2) (by decide)
    rintro ⟨hversion, hversion'⟩
    rcases Nat.lt_or_ge (i + 1) record.length with hone | hzero
    · rw [show i + 2 = record.length + 0 by omega, List.getElem?_append_right (Nat.le_add_right _ _),
        Nat.add_sub_cancel_left] at hversion'
      rw [hversion'] at hknown
      exact absurd hknown (by decide)
    · rw [show i + 1 = record.length + 0 by omega, List.getElem?_append_right (Nat.le_add_right _ _),
        Nat.add_sub_cancel_left] at hversion
      rw [hversion] at hknown
      exact absurd hknown (by decide)

theorem toNat_shift_add {val : UInt32} (h : val.toNat < 2 ^ 24) (byte : UInt8) :
    (val <<< 8 + byte.toUInt32).toNat = val.toNat * 256 + byte.toNat := by
  have hbyte := byte.toNat_lt
  have hshift : (val <<< 8).toNat = val.toNat * 256 := by
    rw [UInt32.toNat_shiftLeft]
    change val.toNat <<< 8 % 2 ^ 32 = _
    rw [Nat.shiftLeft_eq]
    omega
  rw [toNat_add_of_lt ?_, hshift]
  · rfl
  · rw [hshift]
    change _ + byte.toNat < _
    omega

/-- The bytes of a record in the buffer, from position `byte_count` on, which does not wrap
within the record. -/
structure RecordAt (buf record : List UInt8) (byte_count : UInt32) : Prop where
  bytes : ∀ i, i < record.length → buf[byte_count.toNat + i]?.getD 0 = record[i]?.getD 0
  within : byte_count.toNat + record.length < 2 ^ 32

/-- A byte of the record in the buffer. Its position does not wrap. -/
theorem RecordAt.byte (h : RecordAt buf record byte_count) {k : UInt32} (hk : k.toNat < record.length) :
    buf[(byte_count + k).toNat]?.getD 0 = record[k.toNat]?.getD 0 := by
  have hwithin := h.within
  rw [toNat_add_of_lt (by omega), h.bytes _ hk]

/-- The bytes that make up a number in the record. -/
theorem RecordAt.byte_offset (h : RecordAt buf record byte_count) {k : UInt32} (hi : k.toNat + i < record.length) :
    buf[(UInt32.ofNat i + (byte_count + k)).toNat]?.getD 0 = record[k.toNat + i]?.getD 0 := by
  have hwithin := h.within
  have hoffset : (UInt32.ofNat i).toNat = i := UInt32.toNat_ofNat_of_lt' (show i < 2 ^ 32 by omega)
  have hsum : (byte_count + k).toNat = byte_count.toNat + k.toNat := toNat_add_of_lt (by omega)
  rw [toNat_add_of_lt (by omega), hoffset, hsum, show i + (byte_count.toNat + k.toNat) = byte_count.toNat + (k.toNat + i) by omega,
    h.bytes _ hi]

theorem RecordAt.toNat_two_bytes (h : RecordAt buf record byte_count) {k : UInt32} (hk : k.toNat + 2 ≤ record.length) :
    (read_bytes_to_uint32 buf (byte_count + k) 2).value.toNat =
      (record[k.toNat]?.getD 0).toNat * 256 + (record[k.toNat + 1]?.getD 0).toNat := by
  change (((0 : UInt32) <<< 8 + (buf[(UInt32.ofNat 0 + (byte_count + k)).toNat]?.getD 0).toUInt32) <<< 8 +
    (buf[(UInt32.ofNat 1 + (byte_count + k)).toNat]?.getD 0).toUInt32).toNat = _
  have hfirst : ((0 : UInt32) <<< 8 + (record[k.toNat + 0]?.getD 0).toUInt32).toNat = (record[k.toNat]?.getD 0).toNat := by
    rw [toNat_shift_add (by decide)]
    exact Nat.zero_add _
  rw [h.byte_offset (by omega), h.byte_offset (by omega), toNat_shift_add ?_, hfirst]
  have := (record[k.toNat]?.getD 0).toNat_lt
  omega

theorem RecordAt.toNat_three_bytes (h : RecordAt buf record byte_count) {k : UInt32} (hk : k.toNat + 3 ≤ record.length) :
    (read_bytes_to_uint32 buf (byte_count + k) 3).value.toNat =
      ((record[k.toNat]?.getD 0).toNat * 256 + (record[k.toNat + 1]?.getD 0).toNat) * 256 + (record[k.toNat + 2]?.getD 0).toNat := by
  change ((read_bytes_to_uint32 buf (byte_count + k) 2).value <<< 8 +
    (buf[(UInt32.ofNat 2 + (byte_count + k)).toNat]?.getD 0).toUInt32).toNat = _
  have hfirst := h.toNat_two_bytes (k := k) (by omega)
  rw [h.byte_offset (by omega), toNat_shift_add ?_, hfirst]
  have h0 := (record[k.toNat]?.getD 0).toNat_lt
  have h1 := (record[k.toNat + 1]?.getD 0).toNat_lt
  omega

theorem RecordAt.length_eq (h : RecordAt buf record byte_count) (hrecord : IsDtlsRecord record) :
    13 + (record_length buf byte_count).toNat = record.length := by
  have hlong := hrecord.long
  have htwo := h.toNat_two_bytes (k := 11) (show 11 + 2 ≤ record.length by omega)
  rw [record_length, htwo, hrecord.length, Nat.add_assoc]
  rfl

section payload

variable {rl : UInt32}

theorem length_payload (hrl : 13 + rl.toNat = record.length) : (record.drop 13).length = rl.toNat := by
  rw [List.length_drop]
  omega

/-- A byte of the payload in the buffer. -/
theorem RecordAt.payload_byte (h : RecordAt buf record byte_count) {k : UInt32} (hk : k.toNat = 13 + i) (hi : 13 + i < record.length) :
    buf[(byte_count + k).toNat]?.getD 0 = (record.drop 13)[i]?.getD 0 := by
  rw [h.byte (by omega), List.getElem?_drop, hk]

theorem frag_length_lt (payload : List UInt8) : frag_length payload < 2 ^ 24 := by
  have h0 := (payload[9]?.getD 0).toNat_lt
  have h1 := (payload[10]?.getD 0).toNat_lt
  have h2 := (payload[11]?.getD 0).toNat_lt
  rw [frag_length]
  omega

/-- The comparison of the two lengths of a handshake message wraps only where it fails anyway.
-/
theorem sub_eq_iff {frag : UInt32} (h : frag.toNat < 2 ^ 24) : rl - frag = 12 ↔ rl.toNat = 12 + frag.toNat := by
  have hrl := rl.toNat_lt
  rw [← UInt32.toNat_inj, UInt32.toNat_sub]
  change _ = 12 ↔ _
  omega

/-- The message type of a handshake record, as the extractor reads it, is that of its payload.
-/
theorem RecordAt.hs_message_type (h : RecordAt buf record byte_count) (hlong : 14 ≤ record.length)
    (hrl : 13 + rl.toNat = record.length) :
    (hs_message_type buf byte_count rl).value = payload_type HS_CONTENT_TYPE (record.drop 13) := by
  rw [payload_type, if_pos rfl, length_payload hrl]
  by_cases hshort : rl.toNat < 12
  · rw [if_pos hshort, aflnet.hs_message_type, Traced.value_bind, if_neg]
    · rfl
    · exact UInt32.not_le.mpr (UInt32.lt_iff_toNat_lt.mpr hshort)
  · have hthree := h.toNat_three_bytes (k := 22) (show 22 + 3 ≤ record.length by omega)
    have hfrag : (read_bytes_to_uint32 buf (byte_count + 22) 3).value.toNat = frag_length (record.drop 13) := by
      simp only [frag_length, List.getElem?_drop]
      exact hthree
    have hlt := frag_length_lt (record.drop 13)
    rw [if_neg hshort, aflnet.hs_message_type, Traced.value_bind, if_pos (UInt32.le_iff_toNat_le.mpr (Nat.not_lt.mp hshort)),
      Traced.value_bind, value_read_byte, h.payload_byte (i := 0) rfl hlong, ← hfrag]
    rw [← hfrag] at hlt
    by_cases hplain : rl.toNat = 12 + (read_bytes_to_uint32 buf (byte_count + 22) 3).value.toNat
    · rw [if_pos hplain, if_pos ((sub_eq_iff hlt).mpr hplain)]
      rfl
    · rw [if_neg hplain, if_neg fun hsub => hplain ((sub_eq_iff hlt).mp hsub)]
      rfl

theorem RecordAt.ccs_message_type (h : RecordAt buf record byte_count) (hlong : 14 ≤ record.length)
    (hrl : 13 + rl.toNat = record.length) :
    (ccs_message_type buf byte_count rl).value = payload_type CCS_CONTENT_TYPE (record.drop 13) := by
  rw [payload_type, if_neg (by decide), if_pos rfl, length_payload hrl, aflnet.ccs_message_type]
  by_cases hone : rl.toNat = 1
  · rw [if_pos hone, if_pos (UInt32.toNat_inj.mp hone), value_read_byte, h.payload_byte (i := 0) rfl hlong]
  · rw [if_neg hone, if_neg fun heq => hone (congrArg UInt32.toNat heq), if_pos]
    · rfl
    · exact UInt32.lt_iff_toNat_lt.mpr (show 1 < rl.toNat by omega)

theorem RecordAt.alert_message_type (h : RecordAt buf record byte_count)
    (hrl : 13 + rl.toNat = record.length) :
    (alert_message_type buf byte_count rl).value = payload_type ALERT_CONTENT_TYPE (record.drop 13) := by
  rw [payload_type, if_neg (by decide), if_neg (by decide), if_pos rfl, length_payload hrl, aflnet.alert_message_type]
  by_cases htwo : rl.toNat = 2
  · rw [if_neg (show ¬ rl.toNat < 2 by omega), if_pos htwo, if_pos (show rl = 2 from UInt32.toNat_inj.mp htwo), value_read_byte,
      h.payload_byte (i := 1) rfl (by omega)]
  · rw [if_neg fun heq => htwo (congrArg UInt32.toNat heq), if_neg htwo]
    by_cases hshort : rl.toNat < 2
    · rw [if_pos hshort, if_neg (UInt32.not_lt.mpr (UInt32.le_iff_toNat_le.mpr (Nat.le_of_lt hshort)))]
      rfl
    · rw [if_neg hshort, if_pos (show 2 < rl from UInt32.lt_iff_toNat_lt.mpr (show 2 < rl.toNat by omega))]
      rfl

/-- The message type of a heartbeat is that of its payload, of which only the length matters. -/
theorem heartbeat_message_type (hrl : 13 + rl.toNat = record.length) :
    (if rl ≥ 3 then UNKNOWN_MESSAGE_TYPE else MALFORMED_MESSAGE_TYPE) = payload_type HEARTBEAT_CONTENT_TYPE (record.drop 13) := by
  have htype : payload_type HEARTBEAT_CONTENT_TYPE (record.drop 13) =
      if (record.drop 13).length < 3 then MALFORMED_MESSAGE_TYPE else UNKNOWN_MESSAGE_TYPE := rfl
  rw [htype, length_payload hrl]
  by_cases hshort : rl.toNat < 3
  · rw [if_pos hshort, if_neg (show ¬ 3 ≤ rl from UInt32.not_le.mpr (UInt32.lt_iff_toNat_lt.mpr hshort))]
  · rw [if_neg hshort, if_pos (show 3 ≤ rl from UInt32.le_iff_toNat_le.mpr (Nat.not_lt.mp hshort))]

/-- The code of a record in the buffer is the one that its content type and its payload tell. -/
theorem RecordAt.code_eq (h : RecordAt buf record byte_count) (hrecord : IsDtlsRecord record) (buf_size : UInt32) :
    (read_record buf buf_size byte_count).value.1 = record_code record := by
  have hlong := hrecord.long
  have hrl := h.length_eq hrecord
  have htype : byte_at buf byte_count = record[0]?.getD 0 := h.bytes 0 (by omega)
  have hknown : known_content_type (record[0]?.getD 0) = true := ((value_starts_record record 0).mp hrecord.starts).1
  have htypes : (record_types buf byte_count (record_length buf byte_count) (record[0]?.getD 0)).value =
      (record[0]?.getD 0, payload_type (record[0]?.getD 0) (record.drop 13)) := by
    generalize (record[0]?.getD 0) = content_type at hknown
    rcases known_content_type_cases hknown with rfl | rfl | rfl | rfl | rfl
    · exact congrArg (Prod.mk _) (h.ccs_message_type hlong hrl)
    · exact congrArg (Prod.mk _) (h.alert_message_type hrl)
    · exact congrArg (Prod.mk _) (h.hs_message_type hlong hrl)
    · rfl
    · exact congrArg (Prod.mk _) (heartbeat_message_type hrl)
  rw [code_eq_types, htype, htypes]
  rfl

end payload

end bytes

/-- The loop's state at a byte of the buffer. -/
def DtlsScan.at_byte (byte_count : Nat) (state_sequence : List UInt32) : DtlsScan :=
  { byte_count := UInt32.ofNat byte_count, state_sequence }

section scan

variable {buf : List UInt8} {buf_size : UInt32} {n : Nat} {codes : List UInt32}

theorem toNat_ofNat_of_lt {n : Nat} (h : n < buf_size.toNat) : (UInt32.ofNat n).toNat = n :=
  UInt32.toNat_ofNat_of_lt' (Nat.lt_trans h buf_size.toNat_lt)

theorem lt_sub_ofNat_iff {n : Nat} (h : n ≤ buf_size.toNat) : 13 < buf_size - UInt32.ofNat n ↔ n + 13 < buf_size.toNat := by
  have hn : (UInt32.ofNat n).toNat = n := UInt32.toNat_ofNat_of_lt' (Nat.lt_of_le_of_lt h buf_size.toNat_lt)
  rw [UInt32.lt_iff_toNat_lt, UInt32.toNat_sub_of_le _ _ (UInt32.le_iff_toNat_le.mpr (hn.symm ▸ h)), hn]
  change 13 < _ ↔ _
  omega

theorem at_byte_more (h : n < buf_size.toNat) : (dtls_response_while buf buf_size).more (.at_byte n codes) = true :=
  decide_eq_true (UInt32.lt_iff_toNat_lt.mpr (by rw [DtlsScan.at_byte, toNat_ofNat_of_lt h]; exact h))

/-- The loop passes over bytes at which no header starts. -/
theorem reaches_of_no_header {d : Nat} (hin : n + d ≤ buf_size.toNat)
    (h : ∀ j, j < d → ¬ AtHeader buf buf_size (UInt32.ofNat (n + j))) :
    (dtls_response_while buf buf_size).Reaches (.at_byte n codes) (.at_byte (n + d) codes) := by
  induction d with
  | zero => exact .refl _
  | succ d ih =>
    have hbefore := ih (Nat.le_of_succ_le hin) fun j hj => h j (Nat.lt_succ_of_lt hj)
    have hbody := @dtls_response_body_of_not buf buf_size (.at_byte (n + d) codes) (h d (Nat.lt_succ_self d))
    have hnext : DtlsScan.at_byte (n + (d + 1)) codes = { byte_count := UInt32.ofNat (n + d) + 1, state_sequence := codes } := by
      rw [DtlsScan.at_byte, ← Nat.add_assoc, UInt32.ofNat_add]
      rfl
    rw [hnext]
    exact hbefore.snoc (at_byte_more hin) hbody

/-- A header takes the loop on by the length it announces, which leaves out the header itself.
-/
theorem reaches_of_header (codes : List UInt32) (hin : n < buf_size.toNat) (h : AtHeader buf buf_size (UInt32.ofNat n)) :
    (dtls_response_while buf buf_size).Reaches (.at_byte n codes)
      (.at_byte (n + (record_length buf (UInt32.ofNat n)).toNat) (codes ++ [(read_record buf buf_size (UInt32.ofNat n)).value.1])) := by
  have hbody := @dtls_response_body_of_header buf buf_size (.at_byte n codes) h
  have hnext : DtlsScan.at_byte (n + (record_length buf (UInt32.ofNat n)).toNat)
        (codes ++ [(read_record buf buf_size (UInt32.ofNat n)).value.1]) =
      { byte_count := UInt32.ofNat n + record_length buf (UInt32.ofNat n),
        state_sequence := codes ++ [(read_record buf buf_size (UInt32.ofNat n)).value.1] } := by
    rw [DtlsScan.at_byte, UInt32.ofNat_add, UInt32.ofNat_toNat]
  rw [hnext]
  exact .next (at_byte_more hin) hbody (.refl _)

/-- Codes are never taken back, and the loop does not go back without a new code. -/
theorem reaches_order {s t : DtlsScan} (h : (dtls_response_while buf buf_size).Reaches s t) :
    s.state_sequence.length < t.state_sequence.length ∨
      (s.state_sequence.length = t.state_sequence.length ∧ s.byte_count ≤ t.byte_count) := by
  refine h.rule (I := fun t => s.state_sequence.length < t.state_sequence.length ∨
      (s.state_sequence.length = t.state_sequence.length ∧ s.byte_count ≤ t.byte_count)) (Or.inr ⟨rfl, UInt32.le_refl _⟩) ?_
  intro t u ht hmore hbody
  by_cases hheader : AtHeader buf buf_size t.byte_count
  · cases (dtls_response_body_of_header hheader).symm.trans hbody
    left
    rw [List.length_append, List.length_singleton]
    omega
  · cases (dtls_response_body_of_not hheader).symm.trans hbody
    refine ht.imp_right fun hsame => ⟨hsame.1, UInt32.le_trans hsame.2 ?_⟩
    have hlt := UInt32.lt_iff_toNat_lt.mp (of_decide_eq_true hmore : t.byte_count < buf_size)
    have hsize := buf_size.toNat_lt
    exact UInt32.le_of_lt (lt_add_iff.mpr ⟨by decide, show t.byte_count.toNat + 1 < 2 ^ 32 by omega⟩)

end scan

/-- A buffer of whole records, one behind the other, up to `buf_size`. What is allocated behind
them may be anything. -/
structure DtlsText (buf : List UInt8) (buf_size : UInt32) (records : List (List UInt8)) : Prop where
  all : ∀ record ∈ records, IsDtlsRecord record
  text : buf.take buf_size.toNat = records.flatten
  within : buf_size.toNat ≤ buf.length

namespace DtlsText

variable {buf : List UInt8} {buf_size : UInt32} {records before after : List (List UInt8)} {record : List UInt8} {i : Nat}

theorem length_flatten (h : DtlsText buf buf_size records) : records.flatten.length = buf_size.toNat := by
  rw [← h.text, List.length_take, Nat.min_eq_left h.within]

section place

variable (h : DtlsText buf buf_size records) (hsplit : before ++ record :: after = records)

include h hsplit

theorem isDtlsRecord : IsDtlsRecord record := h.all record (by simp [← hsplit])

theorem take_eq : buf.take buf_size.toNat = (before ++ record :: after).flatten := by
  rw [hsplit]
  exact h.text

theorem stop_eq : before.flatten.length + record.length + after.flatten.length = buf_size.toNat :=
  piece_stop_eq h.within (h.take_eq hsplit)

theorem buf_eq : buf = before.flatten ++ (record ++ (after.flatten ++ buf.drop buf_size.toNat)) := by
  conv_lhs => rw [← List.take_append_drop buf_size.toNat buf, h.take_eq hsplit]
  simp

theorem first_lt : before.flatten.length < buf_size.toNat := by
  have hlong := (h.isDtlsRecord hsplit).long
  have hstop := h.stop_eq hsplit
  omega

/-- Each record is in the buffer, where those before it end. -/
theorem record_at : RecordAt buf record (UInt32.ofNat before.flatten.length) := by
  have hstop := h.stop_eq hsplit
  have hsize := buf_size.toNat_lt
  have hfirst := toNat_ofNat_of_lt (h.first_lt hsplit)
  refine ⟨fun i hi => ?_, by omega⟩
  rw [hfirst, getElem?_piece h.within (h.take_eq hsplit) hi]

/-- Where the header pattern is in the buffer, from a byte of the record on. -/
theorem starts_record_iff (i : Nat) : (starts_record buf (before.flatten.length + i)).value = true ↔
    (starts_record (record ++ (after.flatten ++ buf.drop buf_size.toNat)) i).value = true := by
  conv_lhs => rw [h.buf_eq hsplit, starts_record_append]

theorem at_record : AtHeader buf buf_size (UInt32.ofNat before.flatten.length) := by
  have hlong := (h.isDtlsRecord hsplit).long
  have hstop := h.stop_eq hsplit
  rw [atHeader_iff, lt_sub_ofNat_iff (Nat.le_of_lt (h.first_lt hsplit)), toNat_ofNat_of_lt (h.first_lt hsplit)]
  refine ⟨by omega, ?_⟩
  rw [← Nat.add_zero before.flatten.length, h.starts_record_iff hsplit,
    starts_record_append_iff (Nat.lt_of_lt_of_le (by decide) hlong) (Or.inl (Nat.lt_of_lt_of_le (by decide) hlong))]
  exact (h.isDtlsRecord hsplit).starts

/-- At the last bytes of a record the loop finds the header pattern that is in the record itself. -/
theorem at_tail_iff (hi : record.length - 13 ≤ i) (hi' : i < record.length) :
    AtHeader buf buf_size (UInt32.ofNat (before.flatten.length + i)) ↔
      after ≠ [] ∧ (starts_record record i).value = true := by
  have hstop := h.stop_eq hsplit
  rw [atHeader_iff, lt_sub_ofNat_iff (by omega), toNat_ofNat_of_lt (show before.flatten.length + i < buf_size.toNat by omega),
    h.starts_record_iff hsplit]
  cases after with
  | nil =>
    rw [List.flatten_nil, List.length_nil] at hstop
    exact iff_of_false (fun hboth => by omega) fun hboth => hboth.1 rfl
  | cons next after =>
    have hnext : IsDtlsRecord next := h.all next (by simp [← hsplit])
    have hlong := hnext.long
    rw [List.flatten_cons, List.length_append] at hstop
    refine and_congr ⟨fun _ => List.cons_ne_nil _ _, fun _ => by omega⟩ (starts_record_append_iff hi' (Or.inr ?_))
    rw [List.flatten_cons, List.append_assoc, List.getElem?_append_left (by omega)]
    exact ((value_starts_record next 0).mp hnext.starts).1

/-- From a record the loop comes to its last 13 bytes, with the record's code. -/
theorem reaches_tail (codes : List UInt32) :
    (dtls_response_while buf buf_size).Reaches (.at_byte before.flatten.length codes)
      (.at_byte (before.flatten.length + (record.length - 13)) (codes ++ [record_code record])) := by
  have hrecord := h.isDtlsRecord hsplit
  have hat := h.record_at hsplit
  have hlength := hat.length_eq hrecord
  have hreaches := reaches_of_header codes (h.first_lt hsplit) (h.at_record hsplit)
  rw [hat.code_eq hrecord, show (record_length buf (UInt32.ofNat before.flatten.length)).toNat = record.length - 13 by omega]
    at hreaches
  exact hreaches

/-- The loop passes over the last bytes of a record up to a byte if no header pattern starts before it. -/
theorem reaches_of_no_pattern {d : Nat} (codes : List UInt32) (hd : d ≤ 13)
    (hnone : after ≠ [] → ∀ j, j < d → ¬ (starts_record record (record.length - 13 + j)).value = true) :
    (dtls_response_while buf buf_size).Reaches (.at_byte before.flatten.length codes)
      (.at_byte (before.flatten.length + (record.length - 13) + d) (codes ++ [record_code record])) := by
  have hlong := (h.isDtlsRecord hsplit).long
  have hstop := h.stop_eq hsplit
  refine (h.reaches_tail hsplit codes).trans (reaches_of_no_header (by omega) fun j hj hheader => ?_)
  rw [Nat.add_assoc, h.at_tail_iff hsplit (Nat.le_add_right _ _) (by omega)] at hheader
  exact hnone hheader.1 j hj hheader.2

end place

end DtlsText

/-- The codes are those of the records, each found when the loop is at the record's first byte. -/
structure OneCodeEach (buf : List UInt8) (buf_size : UInt32) (records : List (List UInt8)) : Prop where
  returns : (dtls_response_while buf buf_size).Ends .start (.at_byte buf_size.toNat (0 :: records.map record_code))
  own : ∀ before record after, before ++ record :: after = records →
    (dtls_response_while buf buf_size).Reaches .start (.at_byte before.flatten.length (0 :: before.map record_code))

/-- No header pattern starts in the last 13 bytes of a record that is followed by another one. -/
def PlainTails (records : List (List UInt8)) : Prop :=
  ∀ before record after, before ++ record :: after = records → after ≠ [] →
    ∀ i, record.length - 13 ≤ i → ¬ (starts_record record i).value = true

section one_code_each

variable {buf : List UInt8} {buf_size : UInt32} {records before after : List (List UInt8)} {record : List UInt8}

/-- With plain tails the loop comes to the beginning of each record, and has the codes of those
before it. -/
theorem reaches_of_plain_tails (h : DtlsText buf buf_size records) (hplain : PlainTails records)
    (hsplit : before ++ after = records) :
    (dtls_response_while buf buf_size).Reaches .start (.at_byte before.flatten.length (0 :: before.map record_code)) := by
  induction before using List.reverseRecOn generalizing after with
  | nil => exact .refl _
  | append_singleton before record ih =>
    have hsplit' : before ++ record :: after = records := by simp [← hsplit]
    have hlong := (h.isDtlsRecord hsplit').long
    have hnext := h.reaches_of_no_pattern hsplit' (0 :: before.map record_code) (Nat.le_refl 13)
      fun hne j _ => hplain before record after hsplit' hne _ (Nat.le_add_right _ _)
    rw [List.flatten_append, List.flatten_singleton, List.length_append, List.map_append, List.map_singleton, ← List.cons_append]
    rw [Nat.add_assoc, Nat.sub_add_cancel (Nat.le_of_succ_le hlong)] at hnext
    exact (ih hsplit').trans hnext

/-- Two states with as many codes: behind a header at the first one there is a code more. -/
theorem not_reaches_both {s t : DtlsScan} (hs : (dtls_response_while buf buf_size).Reaches .start s)
    (ht : (dtls_response_while buf buf_size).Reaches .start t) (hheader : AtHeader buf buf_size s.byte_count)
    (hsame : s.state_sequence.length = t.state_sequence.length) : ¬ s.byte_count < t.byte_count := by
  intro hlt
  rcases hs.total ht with hafter | hbefore
  · rcases hafter.eq_or_next (dtls_response_body_of_header hheader) with rfl | hnext
    · exact UInt32.lt_irrefl _ hlt
    · have horder := reaches_order hnext
      rw [List.length_append, List.length_singleton] at horder
      omega
  · rcases reaches_order hbefore with hmore | ⟨_, hle⟩
    · omega
    · exact UInt32.lt_irrefl _ (UInt32.lt_of_lt_of_le hlt hle)

/-- A header pattern in the last bytes of a record makes a code that belongs to no record. -/
theorem plain_tails_of_own (h : DtlsText buf buf_size records) (hown : OneCodeEach buf buf_size records) : PlainTails records := by
  classical
  intro before record after hsplit hne i hi hpattern
  obtain ⟨next, after, rfl⟩ := List.exists_cons_of_ne_nil hne
  have hstop := h.stop_eq hsplit
  have hlong := (h.isDtlsRecord hsplit).long
  have hsize := buf_size.toNat_lt
  have hin : i < record.length := by
    refine Nat.not_le.mp fun hout => ?_
    have hknown := ((value_starts_record record i).mp hpattern).1
    rw [List.getElem?_eq_none hout] at hknown
    exact absurd hknown (by decide)
  -- the first such pattern is found, since the loop passes over the bytes before it
  have hex : ∃ j, (starts_record record (record.length - 13 + j)).value = true :=
    ⟨i - (record.length - 13), by rw [Nat.add_sub_cancel' hi]; exact hpattern⟩
  have hle : Nat.find hex ≤ i - (record.length - 13) :=
    Nat.find_min' hex (by rw [Nat.add_sub_cancel' hi]; exact hpattern)
  have hs := (hown.own before record _ hsplit).trans
    (h.reaches_of_no_pattern hsplit (0 :: before.map record_code) (d := Nat.find hex) (by omega) fun _ j => Nat.find_min hex)
  have hheader := (h.at_tail_iff hsplit (Nat.le_add_right _ _) (by omega)).mpr ⟨hne, Nat.find_spec hex⟩
  rw [← Nat.add_assoc] at hheader
  have ht := hown.own (before ++ [record]) next after (by simp [← hsplit])
  refine not_reaches_both hs ht hheader (by simp [DtlsScan.at_byte]) ?_
  rw [UInt32.lt_iff_toNat_lt, DtlsScan.at_byte, DtlsScan.at_byte, List.flatten_append, List.flatten_singleton, List.length_append,
    UInt32.toNat_ofNat_of_lt' (show _ < 2 ^ 32 by omega), UInt32.toNat_ofNat_of_lt' (show _ < 2 ^ 32 by omega)]
  omega

/-- There is one code for each record if and only if no header pattern starts in the last 13 bytes of a record
that is followed by another one. -/
theorem one_code_each_iff (h : DtlsText buf buf_size records) : OneCodeEach buf buf_size records ↔ PlainTails records := by
  refine ⟨plain_tails_of_own h, fun hplain => ⟨?_, fun before record after hsplit => reaches_of_plain_tails h hplain hsplit⟩⟩
  have hall := reaches_of_plain_tails h hplain (List.append_nil records)
  rw [h.length_flatten] at hall
  refine hall.ends (.stop ?_)
  refine decide_eq_false (UInt32.not_lt.mpr (UInt32.le_iff_toNat_le.mpr ?_))
  rw [DtlsScan.at_byte, UInt32.ofNat_toNat]

end one_code_each

section sample_records

/-- An application data record with a payload of one byte. -/
def plain_record : List UInt8 := [0x17, 0xFE, 0xFD, 0, 0, 0, 0, 0, 0, 3, 0, 0, 1, 7]

/-- An application data record whose payload is the header pattern. -/
def tricky_record : List UInt8 := [0x17, 0xFE, 0xFD, 0, 0, 0, 0, 0, 0, 0, 0, 0, 3, 0x17, 0xFE, 0xFD]

theorem is_plain_record : IsDtlsRecord plain_record := ⟨by decide, by decide, by decide⟩

/-- The last 13 bytes of the first record contain no header pattern. -/
theorem plain_tails_plain_record : PlainTails [plain_record, plain_record] := by
  have hbytes : ∀ i, 1 ≤ i → i < 14 → ¬ (starts_record plain_record i).value = true := by decide
  intro before record after hsplit hne i hi hpattern
  have hrecord : record = plain_record := by
    have hmem : record ∈ [plain_record, plain_record] := hsplit ▸ (by simp)
    simpa using hmem
  subst hrecord
  refine hbytes i hi (Nat.lt_of_not_le fun hout => ?_) hpattern
  have hknown := ((value_starts_record plain_record i).mp hpattern).1
  rw [List.getElem?_eq_none hout] at hknown
  exact absurd hknown (by decide)

theorem plain_records_have_one_code_each :
    OneCodeEach (plain_record ++ plain_record) 28 [plain_record, plain_record] :=
  (one_code_each_iff ⟨by simp [is_plain_record], by decide, by decide⟩).mpr plain_tails_plain_record

/-- The payload of the first record makes a code of its own. -/
theorem tricky_record_has_two_codes :
    DtlsText (tricky_record ++ plain_record) 30 [tricky_record, plain_record] ∧
      ¬ OneCodeEach (tricky_record ++ plain_record) 30 [tricky_record, plain_record] ∧
      extract_response_codes_dtls12 (tricky_record ++ plain_record) 30 30 = [0, 0x17FF, 0x17FF, 0x17FF] := by
  have htext : DtlsText (tricky_record ++ plain_record) 30 [tricky_record, plain_record] := by
    refine ⟨?_, by decide, by decide⟩
    simp only [List.forall_mem_cons, List.not_mem_nil, false_implies, implies_true, and_true]
    exact ⟨⟨by decide, by decide, by decide⟩, is_plain_record⟩
  refine ⟨htext, fun hown => ?_, by decide⟩
  exact plain_tails_of_own htext hown [] tricky_record [plain_record] rfl (by simp) 13 (by decide) (by decide)

end sample_records

end aflnet
