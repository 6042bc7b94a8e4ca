import AflnetLegion.Protocol.Responses
import AflnetLegion.Protocol.Tls

namespace aflnet

/-- The code of a record: its content type, and the first byte of its payload unless that is application data. -/
def tls_code (record : List UInt8) : UInt32 :=
  let content_type : UInt8 := record[0]?.getD 0
  let first : UInt8 := record[5]?.getD 0
  content_type.toUInt32 * 256 + if content_type = 0x17 then 255 else first.toUInt32

section tls_body

variable {buf record : List UInt8} {buf_size : Nat} {s : Scan}

theorem shiftLeft_eight (byte : UInt8) : byte.toUInt32 <<< 8 = byte.toUInt32 * 256 := by
  have hbyte := byte.toNat_lt
  rw [← UInt32.toNat_inj, toNat_shiftLeft_byte byte (by decide), UInt32.toNat_mul]
  change byte.toNat <<< 8 = byte.toNat * 256 % 2 ^ 32
  rw [Nat.shiftLeft_eq]
  omega

/-- The bytes of a record in the buffer, at the start of a message. The record has a payload, as
its code is taken from there. -/
structure TlsAt (buf : List UInt8) (buf_size : Nat) (record : List UInt8) (s : Scan) : Prop where
  bytes : ∀ i, i < record.length → buf[s.byte_count + i]?.getD 0 = record[i]?.getD 0
  within : s.byte_count + record.length ≤ buf_size
  size : buf_size ≤ buf.length
  mem_count : s.mem_count = 0
  isRecord : IsRecord record
  long : 6 ≤ record.length

/-- The first 6 bytes of a record are read into `mem`. -/
theorem TlsAt.exit_eq (h : TlsAt buf buf_size record s) :
    (tls_loop buf buf_size).exit s = (tls_loop buf buf_size).exit (s.read_on buf 6) := by
  have hwithin := h.within
  have hlong := h.long
  have hmem := h.mem_count
  refine Scan.exit_read_on fun n hn => ⟨decide_eq_true ?_, ?_⟩
  · rw [Scan.byte_count_read_on]
    omega
  · refine if_neg (Nat.not_le_of_lt ?_)
    change (s.read_on buf n).mem_count < 6
    rw [Scan.mem_count_read_on]
    omega

/-- The first six bytes of a record are in `mem` when the seventh is read. -/
theorem TlsAt.mem_eq (h : TlsAt buf buf_size record s) {i : Nat} (hi : i < 6) :
    ((s.read_on buf 6).read buf).mem i = record[i]?.getD 0 := by
  have hwithin := h.within
  have hlong := h.long
  have hsize := h.size
  have hmem := h.mem_count
  have hcount : (s.read_on buf 6).mem_count = 6 := by rw [Scan.mem_count_read_on, hmem]
  have hline : (s.read_on buf 6).line = (buf.drop s.byte_count).take 6 := by
    have hempty : s.line = [] := List.eq_nil_of_length_eq_zero (s.toReader.length_line.trans hmem)
    rw [Scan.line_read_on buf 6 s (by omega), hempty, List.nil_append]
  have hread : ((s.read_on buf 6).read buf).mem i = (s.read_on buf 6).mem i := by
    refine Function.update_of_ne ?_ ..
    rw [hcount]
    omega
  rw [hread, Reader.mem_eq_getD (hcount.symm ▸ hi), hline, List.getElem?_take_of_lt hi, List.getElem?_drop,
    h.bytes i (by omega)]

/-- The size of the payload less the byte that was read does not wrap, as there is a payload. -/
theorem toNat_size_sub_one {b3 b4 : UInt8} (h : 1 ≤ b3.toNat * 256 + b4.toNat) :
    (((b3.toUInt32 <<< 8) + b4.toUInt32) - 1).toNat = b3.toNat * 256 + b4.toNat - 1 := by
  have h3 := b3.toNat_lt
  have h4 := b4.toNat_lt
  have hshift : (b3.toUInt32 <<< 8).toNat = b3.toNat * 256 := by
    rw [toNat_shiftLeft_byte _ (by decide)]
    exact Nat.shiftLeft_eq ..
  have hfour : b4.toUInt32.toNat = b4.toNat := rfl
  have hsum : ((b3.toUInt32 <<< 8) + b4.toUInt32).toNat = b3.toNat * 256 + b4.toNat := by
    rw [toNat_add_of_lt (by omega), hshift, hfour]
  have hone : (1 : UInt32) ≤ (b3.toUInt32 <<< 8) + b4.toUInt32 := by
    rw [UInt32.le_iff_toNat_le, hsum]
    exact h
  rw [UInt32.toNat_sub_of_le _ _ hone, hsum]
  rfl

/-- The number of bytes to skip. -/
theorem TlsAt.toNat_skip (h : TlsAt buf buf_size record s) {mem : Nat → UInt8} (hmem : ∀ i, i < 6 → mem i = record[i]?.getD 0) :
    (((mem 3).toUInt32 <<< 8) + (mem 4).toUInt32 - 1).toNat = record.length - 6 := by
  have hlong := h.long
  have hlength := h.isRecord
  rw [IsRecord, ← hmem 3 (by decide), ← hmem 4 (by decide)] at hlength
  rw [toNat_size_sub_one (by omega)]
  omega

/-- The code is made of the content type and the first byte of the payload, which application
data does not tell. -/
theorem tls_code_eq {mem : Nat → UInt8} (hmem : ∀ i, i < 6 → mem i = record[i]?.getD 0) :
    ((mem 0).toUInt32 <<< 8) + (if mem 0 ≠ 0x17 then mem 5 else 0xFF).toUInt32 = tls_code record := by
  rw [shiftLeft_eight, tls_code, ← hmem 0 (by decide), ← hmem 5 (by decide)]
  by_cases htype : mem 0 = 0x17
  · rw [if_neg (not_not.mpr htype), if_pos htype]
    rfl
  · rw [if_pos htype, if_neg htype]

/-- The byte behind a record is read twice, unless the buffer ends. -/
theorem skip_record {n left : Nat} (hmore : n + 6 < buf_size) (hlong : 6 ≤ left)
    (hrest : n + left = buf_size ∨ n + left + 6 ≤ buf_size) :
    (if skip_payload buf_size (left - 6) (n + 6 + 1) < buf_size then skip_payload buf_size (left - 6) (n + 6 + 1) - 1
      else skip_payload buf_size (left - 6) (n + 6 + 1)) = n + left := by
  rw [skip_payload_eq]
  split <;> omega

/-- The round that has the 7th byte of a message adds the record's code, and leads to the next record. -/
theorem TlsAt.next (h : TlsAt buf buf_size record s) (hmore : s.byte_count + 6 < buf_size)
    (hrest : s.byte_count + record.length = buf_size ∨ s.byte_count + record.length + 6 ≤ buf_size) :
    ∃ t, (tls_loop buf buf_size).exit s = (tls_loop buf buf_size).exit t ∧ t.byte_count = s.byte_count + record.length ∧
      t.mem_count = 0 ∧ t.state_sequence = s.state_sequence ++ [tls_code record] := by
  have hmem : ∀ i, i < 6 → ((s.read_on buf 6).read buf).mem i = record[i]?.getD 0 := fun i hi => h.mem_eq hi
  have hcount : (s.read_on buf 6).byte_count = s.byte_count + 6 := Scan.byte_count_read_on buf 6 s
  have hsix : 6 ≤ ((s.read_on buf 6).read buf).mem_count := by
    change 6 ≤ (s.read_on buf 6).mem_count
    rw [Scan.mem_count_read_on]
    exact Nat.le_add_left ..
  have hread : ((s.read_on buf 6).read buf).byte_count = s.byte_count + 6 + 1 := congrArg (· + 1) hcount
  have hbody : tls_body buf buf_size (s.read_on buf 6) = .yield { ((s.read_on buf 6).read buf).add_code (tls_code record) with
      byte_count := s.byte_count + record.length } := by
    rw [tls_body]
    dsimp only
    rw [if_pos hsix, tls_code_eq hmem, h.toNat_skip hmem, hread, skip_record hmore h.long hrest]
  refine ⟨_, h.exit_eq.trans (Loop.exit_of_yield (decide_eq_true (hcount ▸ hmore)) hbody), rfl, rfl, ?_⟩
  change (s.read_on buf 6).state_sequence ++ [tls_code record] = _
  rw [Scan.state_sequence_read_on]

/-- A record of 6 bytes at the end of the buffer has no code. -/
theorem TlsAt.last (h : TlsAt buf buf_size record s) (hlast : s.byte_count + 6 = buf_size) :
    ((tls_loop buf buf_size).exit s).state_sequence = s.state_sequence := by
  rw [h.exit_eq, Loop.exit_of_stop, Scan.state_sequence_read_on]
  refine decide_eq_false ?_
  rw [Scan.byte_count_read_on]
  omega

end tls_body

/-- The records of which the loop finds the code: all but a last one with a payload of one byte. -/
def coded_records (records : List (List UInt8)) : List (List UInt8) :=
  if ∃ record ∈ records.getLast?, record.length = 6 then records.dropLast else records

section coded_records

variable {buf : List UInt8} {buf_size : Nat} {records after : List (List UInt8)} {s : Scan}

theorem coded_records_cons (record : List UInt8) (h : after ≠ []) :
    coded_records (record :: after) = record :: coded_records after := by
  obtain ⟨next, rest, rfl⟩ := List.exists_cons_of_ne_nil h
  rw [coded_records, coded_records, List.getLast?_cons_cons, List.dropLast_cons_cons]
  split <;> rfl

/-- From the start of a record on the loop finds the codes of the records to come, but for a
last one whose payload is one byte. -/
theorem tls_loop_exit (before : List (List UInt8)) (hsize : buf_size ≤ buf.length) (hrecords : ∀ record ∈ after, IsRecord record ∧ 6 ≤ record.length)
    (htext : buf.take buf_size = (before ++ after).flatten) (hcount : s.byte_count = before.flatten.length) (hmem : s.mem_count = 0) :
    ((tls_loop buf buf_size).exit s).state_sequence = s.state_sequence ++ (coded_records after).map tls_code := by
  induction after generalizing before s with
  | nil =>
    have hlength := congrArg List.length htext
    rw [List.append_nil, List.length_take, Nat.min_eq_left hsize, ← hcount] at hlength
    rw [Loop.exit_of_stop (decide_eq_false (by omega))]
    exact (List.append_nil _).symm
  | cons record after ih =>
    have hstop := piece_stop_eq hsize htext
    obtain ⟨hrecord, hlong⟩ := hrecords record (List.mem_cons_self ..)
    have hat : TlsAt buf buf_size record s :=
      ⟨fun i hi => by rw [hcount, getElem?_piece hsize htext hi], by omega, hsize, hmem, hrecord, hlong⟩
    by_cases hlast : after = []
    · subst hlast
      rw [List.flatten_nil, List.length_nil] at hstop
      by_cases hsix : record.length = 6
      · rw [hat.last (by omega), coded_records, if_pos ⟨record, rfl, hsix⟩]
        exact (List.append_nil _).symm
      · obtain ⟨t, hexit, htcount, _, hcodes⟩ := hat.next (by omega) (Or.inl (by omega))
        rw [hexit, Loop.exit_of_stop (decide_eq_false (by omega)), hcodes, coded_records, if_neg]
        · rfl
        · rintro ⟨last, ⟨⟩, hsix'⟩
          exact hsix hsix'
    · have hafter : 6 ≤ after.flatten.length := by
        obtain ⟨next, rest, rfl⟩ := List.exists_cons_of_ne_nil hlast
        have hnext := (hrecords next (by simp)).2
        rw [List.flatten_cons, List.length_append]
        omega
      obtain ⟨t, hexit, htcount, htmem, hcodes⟩ := hat.next (by omega) (Or.inr (by omega))
      rw [hexit, ih (before ++ [record]) (fun r hr => hrecords r (List.mem_cons_of_mem _ hr)) ?_ ?_ htmem, hcodes,
        coded_records_cons record hlast, List.map_cons, List.append_assoc]
      · rfl
      · rw [htext]
        simp
      · rw [htcount, hcount, List.flatten_append, List.flatten_singleton, List.length_append]

/-- There is one code for each record, with its content type and the type of its message, if and
only if the payload of the last record has more than one byte. The loop asks for seven bytes of
a record where six would do. -/
theorem extract_response_codes_tls_iff (hsize : buf_size ≤ buf.length) (hrecords : ∀ record ∈ records, IsRecord record ∧ 6 ≤ record.length)
    (htext : buf.take buf_size = records.flatten) :
    extract_response_codes_tls buf buf_size = 0 :: records.map tls_code ↔ ∀ record ∈ records.getLast?, record.length ≠ 6 := by
  have hcodes : extract_response_codes_tls buf buf_size = 0 :: (coded_records records).map tls_code :=
    tls_loop_exit (s := .start) [] hsize hrecords htext rfl rfl
  rw [hcodes, coded_records, List.cons_inj_right]
  split
  · rename_i hlast
    obtain ⟨record, hrecord, hsix⟩ := hlast
    refine iff_of_false (fun heq => ?_) fun hnot => hnot record hrecord hsix
    have hlength := congrArg List.length heq
    have hpos := List.length_pos_of_mem (List.mem_of_getLast? hrecord)
    rw [List.length_map, List.length_map, List.length_dropLast] at hlength
    omega
  · rename_i hnone
    exact iff_of_true rfl fun record hrecord hsix => hnone ⟨record, hrecord, hsix⟩

/-- A record with a payload of two bytes. -/
theorem two_byte_payload_has_a_code : extract_response_codes_tls [22, 3, 3, 0, 1, 14, 22, 3, 3, 0, 2, 1, 0] 13 = [0, 0x160E, 0x1601] :=
  (@extract_response_codes_tls_iff _ _ [[22, 3, 3, 0, 1, 14], [22, 3, 3, 0, 2, 1, 0]] (by decide) (by decide) (by decide)).mpr
    (by decide)

/-- A last record with a payload of one byte has no code. -/
theorem one_byte_payload_has_no_code : extract_response_codes_tls [20, 3, 3, 0, 1, 1] 6 = [0] := by decide

end coded_records

end aflnet
