import AflnetLegion.Protocol.Framed

open PrefixCode

namespace aflnet

/-- The payload that the header of a TLS record announces, in its 4th and 5th bytes. At most
65535 bytes can be announced. -/
def payload_size (mem : Nat → UInt8) : UInt16 := ntohs (mem 3) (mem 4)

/-- The rest of a record whose first 6 bytes have been read. -/
def tls_message (buf_size : Nat) (s : Split) : Split := s.skip_rest buf_size (payload_size s.mem).toNat

/-- A record is read on from the first bytes that tell its length. -/
theorem reads_rest_tls (buf : List UInt8) (buf_size : Nat) : ReadsRest 5 (tls_message buf_size) buf buf_size :=
  fun _ h hlong => h.skip_rest (Nat.lt_of_lt_of_le (by decide) hlong) buf _

/-- A record's header has 5 bytes, and its payload is skipped as far as there are bytes in the
buffer. -/
def tls_request_loop (buf : List UInt8) (buf_size : Nat) : Loop {s // Level buf_size s} :=
  framed_loop 5 (tls_message buf_size) buf buf_size (by decide) (reads_rest_tls buf buf_size)

/-- `extract_requests_tls`: a buffer without any record makes one region. -/
def extract_requests_tls (buf : List UInt8) (buf_size : Nat) : List region_t :=
  regions_or_whole ((tls_request_loop buf buf_size).exit ⟨.start, level_start⟩).val.regions buf_size

/-- A TLS record: a header of 5 bytes and as many bytes as it says. -/
def IsRecord (record : List UInt8) : Prop :=
  record.length = 5 + (record[3]?.getD 0).toNat * 256 + (record[4]?.getD 0).toNat

instance (record : List UInt8) : Decidable (IsRecord record) := inferInstanceAs (Decidable (_ = _))

section record

variable {record record' : List UInt8}

theorem payload_size_congr {mem mem' : Nat → UInt8} (h : ∀ i, i < 5 → mem i = mem' i) : payload_size mem = payload_size mem' := by
  rw [payload_size, payload_size, h 3 (by decide), h 4 (by decide)]

theorem isRecord_iff : IsRecord record ↔ record.length = 5 + (payload_size fun i => record[i]?.getD 0).toNat := by
  rw [IsRecord, payload_size, toNat_ntohs, Nat.add_assoc]

theorem IsRecord.long (h : IsRecord record) : 5 ≤ record.length := by
  rw [isRecord_iff.mp h]
  exact Nat.le_add_right ..

/-- The header tells the length. -/
theorem payload_size_starts (hstarts : record <+: record') (hlong : 5 ≤ record.length) :
    (payload_size fun i => record'[i]?.getD 0) = payload_size fun i => record[i]?.getD 0 := by
  obtain ⟨rest, rfl⟩ := hstarts
  refine payload_size_congr fun i hi => ?_
  rw [List.getElem?_append_left (Nat.lt_of_lt_of_le hi hlong)]

theorem prefixFree_isRecord : PrefixFree IsRecord := by
  intro record record' h h' hstarts
  refine hstarts.eq_of_length ?_
  rw [isRecord_iff.mp h, isRecord_iff.mp h', payload_size_starts hstarts h.long]

end record

/-- Records as a format of messages. The end of a record is never found by the byte behind it
alone, so no text needs an exception. -/
def tls_format : Format where
  header := 5
  IsMessage := IsRecord
  Exact := fun _ => False
  two_le := by decide
  long := fun _ h => h.long
  exact_long := fun _ hfalse => hfalse.elim
  prefixFree := prefixFree_isRecord

section tls_loop

variable {buf : List UInt8} {buf_size : Nat} {s : Split} {piece : List UInt8}

/-- The header of a record is in `mem`. -/
theorem payload_size_read (hfive : s.mem_count = 5) (hstarts : s.line <+: piece) :
    payload_size (s.read buf).mem = payload_size fun i => piece[i]?.getD 0 := by
  rw [payload_size_starts hstarts (Nat.le_of_eq (hfive.symm.trans s.toReader.length_line.symm))]
  refine payload_size_congr fun i hi => ?_
  rw [← s.toReader.line_read buf]
  exact Reader.mem_eq_getD (show i < s.mem_count from hfive ▸ hi)

theorem reads_tls (hsize : buf_size ≤ buf.length) : tls_format.Reads (tls_message buf_size) buf buf_size := by
  intro messages s h hin hfive
  refine h.at_end_skip hin hsize hfive (fun piece hstarts hlong => ?_) (fun w hw hstarts => ⟨?_, id⟩)
  · rw [payload_size_read hfive hstarts] at hlong
    exact isRecord_iff.mpr hlong
  · rw [payload_size_read hfive hstarts]
    exact isRecord_iff.mp hw

/-- What the loop finds in any buffer that is not empty. -/
theorem tls_request_loop_exit (hpos : 0 < buf_size) (hsize : buf_size ≤ buf.length) :
    tls_format.Found buf buf_size ((tls_request_loop buf buf_size).exit ⟨.start, level_start⟩).val.regions :=
  Format.framed_loop_exit (f := tls_format) (by decide) (reads_rest_tls buf buf_size) (reads_tls hsize) hpos hsize

end tls_loop

/-- The regions of TLS requests are consecutive pieces of the whole buffer, and those of whole
records are the records. Neither needs a record to have a payload, and the first part holds of
any bytes. -/
theorem covers_extract_requests_tls {buf : List UInt8} {buf_size : Nat} (hpos : 0 < buf_size) (hsize : buf_size ≤ buf.length) :
    Covers (extract_requests_tls buf buf_size) buf_size ∧
      ∀ records, (∀ record ∈ records, IsRecord record) → buf.take buf_size = records.flatten →
        extract_requests_tls buf buf_size = consecutive_regions 0 records := by
  have hfound := tls_request_loop_exit hpos hsize
  refine ⟨hfound.covers (fun _ => id) hpos hsize, fun records hrecords htext => hfound.eq_messages ?_ hrecords htext⟩
  rintro rfl
  have hlength := congrArg List.length htext
  rw [List.length_take, Nat.min_eq_left hsize] at hlength
  exact absurd hlength (Nat.ne_of_gt hpos)

/-- Two records without payload. -/
theorem empty_records_are_found : extract_requests_tls [22, 3, 3, 0, 0, 23, 3, 3, 0, 0] 10 = [.fresh 0 4, .fresh 5 9] :=
  (covers_extract_requests_tls (by decide) (by decide)).2 [[22, 3, 3, 0, 0], [23, 3, 3, 0, 0]] (by decide) (by decide)

end aflnet
