import AflnetLegion.Lib.While
import AflnetLegion.Protocol.Dicom

namespace aflnet

/-- The version of a record, and the content types that are known. -/
def dtls12_version : List UInt8 := [0xFE, 0xFD]

def CCS_CONTENT_TYPE : UInt8 := 0x14

def ALERT_CONTENT_TYPE : UInt8 := 0x15

def HS_CONTENT_TYPE : UInt8 := 0x16

def APPLICATION_CONTENT_TYPE : UInt8 := 0x17

def HEARTBEAT_CONTENT_TYPE : UInt8 := 0x18

/-- The known types are the numbers from 0x14 to 0x18, which the source compares one by one. -/
def known_content_type (content_type : UInt8) : Bool :=
  CCS_CONTENT_TYPE ≤ content_type && content_type ≤ HEARTBEAT_CONTENT_TYPE

/-- A byte of the buffer is read. -/
def read_byte (buf : List UInt8) (i : Nat) : Traced Nat UInt8 := .read i (buf[i]?.getD 0)

/-- `memcmp(&buf[i], bytes, sizeof(bytes)) == 0`, which may read all of the bytes. -/
def memcmp_bytes (buf : List UInt8) (i : Nat) : List UInt8 → Traced Nat Bool
  | [] => pure true
  | byte :: bytes => do
    let first ← read_byte buf i
    let rest ← memcmp_bytes buf (i + 1) bytes
    pure (first == byte && rest)

/-- Whether the bytes from `i` on are a known content type and the version. The version is read
only behind a known type. -/
def starts_record (buf : List UInt8) (i : Nat) : Traced Nat Bool := do
  let content_type ← read_byte buf i
  if known_content_type content_type then memcmp_bytes buf (i + 1) dtls12_version else pure false

section reads

variable (buf : List UInt8) (i : Nat)

@[simp] theorem value_read_byte : (read_byte buf i).value = buf[i]?.getD 0 := rfl

@[simp] theorem reads_read_byte : (read_byte buf i).reads = [i] := rfl

/-- The version is read only behind a known type, by a comparison of two bytes. -/
theorem reads_starts_record : (starts_record buf i).reads =
    if known_content_type (buf[i]?.getD 0) then [i, i + 1, i + 2] else [i] := by
  rw [starts_record, Traced.reads_bind, value_read_byte]
  cases known_content_type (buf[i]?.getD 0) <;> rfl

theorem value_starts_record : (starts_record buf i).value = true ↔
    known_content_type (buf[i]?.getD 0) = true ∧ buf[i + 1]?.getD 0 = 0xFE ∧ buf[i + 2]?.getD 0 = 0xFD := by
  rw [starts_record, Traced.value_bind, value_read_byte]
  cases known_content_type (buf[i]?.getD 0) <;> simp [memcmp_bytes, dtls12_version]

end reads

/-- The state of the extractor of DTLS requests. The region that is open starts at `cur_start`.
-/
structure DtlsSplit where
  byte_count : Nat
  cur_start : Nat
  regions : List region_t

namespace DtlsSplit

/-- Before the first round. -/
def start : DtlsSplit := { byte_count := 0, cur_start := 0, regions := [] }

/-- The region up to the byte `stop`. -/
def add_region (s : DtlsSplit) (stop : Int) : DtlsSplit := { s with regions := s.regions ++ [.fresh s.cur_start stop] }

/-- `byte_count++`. -/
def next (s : DtlsSplit) : DtlsSplit := { s with byte_count := s.byte_count + 1 }

end DtlsSplit

/-- Whether a request ends before the byte. -/
def finds_record (buf : List UInt8) (buf_size byte_count : Nat) : Traced Nat Bool :=
  if 3 < byte_count ∧ 1 < buf_size - byte_count then starts_record buf byte_count else pure false

/-- The loop's body. A record that begins behind the start of the open region closes it, and so
does the last byte of the buffer. -/
def dtls_request_body (buf : List UInt8) (buf_size : Nat) (s : DtlsSplit) : Traced Nat (ForInStep DtlsSplit) := do
  if ← finds_record buf buf_size s.byte_count then pure (.yield { s.add_region ((s.byte_count : Int) - 1) with cur_start := s.byte_count }.next)
  else if s.byte_count = buf_size - 1 then pure (.done (s.add_region s.byte_count))
  else pure (.yield s.next)

/-- The loop, with the bytes that it reads. That it ends is shown apart from it. -/
def dtls_request_while (buf : List UInt8) (buf_size : Nat) : While Nat DtlsSplit where
  more := fun s => s.byte_count < buf_size
  body := dtls_request_body buf buf_size

section dtls_request_body

variable {buf : List UInt8} {buf_size : Nat} {s t : DtlsSplit}

/-- What a round does: it cuts before a record behind the first bytes, cuts behind the last byte, or goes on. -/
theorem dtls_request_body_cases (buf : List UInt8) (buf_size : Nat) (s : DtlsSplit) :
    (3 < s.byte_count ∧ 1 < buf_size - s.byte_count ∧ (dtls_request_body buf buf_size s).value =
      .yield { s.add_region ((s.byte_count : Int) - 1) with cur_start := s.byte_count }.next) ∨
    (s.byte_count = buf_size - 1 ∧ (dtls_request_body buf buf_size s).value = .done (s.add_region s.byte_count)) ∨
    (s.byte_count ≠ buf_size - 1 ∧ (dtls_request_body buf buf_size s).value = .yield s.next) := by
  rw [dtls_request_body, Traced.value_bind]
  cases hfinds : (finds_record buf buf_size s.byte_count).value with
  | true =>
    rw [finds_record] at hfinds
    split at hfinds
    · rename_i hbehind
      exact Or.inl ⟨hbehind.1, hbehind.2, rfl⟩
    · cases hfinds
  | false =>
    by_cases hlast : s.byte_count = buf_size - 1
    · exact Or.inr (Or.inl ⟨hlast, by simp [hlast]⟩)
    · exact Or.inr (Or.inr ⟨hlast, by simp [hlast]⟩)

theorem dtls_request_body_advances (hbody : (dtls_request_body buf buf_size s).value = .yield t) :
    t.byte_count = s.byte_count + 1 := by
  rcases dtls_request_body_cases buf buf_size s with ⟨_, _, hvalue⟩ | ⟨_, hvalue⟩ | ⟨_, hvalue⟩
  · cases hvalue.symm.trans hbody
    rfl
  · cases hvalue.symm.trans hbody
  · cases hvalue.symm.trans hbody
    rfl

theorem dtls_request_while_decreases (hmore : (dtls_request_while buf buf_size).more s = true)
    (hbody : ((dtls_request_while buf buf_size).body s).value = .yield t) :
    buf_size - t.byte_count < buf_size - s.byte_count := by
  have hin : s.byte_count < buf_size := of_decide_eq_true hmore
  rw [dtls_request_body_advances hbody]
  omega

end dtls_request_body

/-- The loop together with the measure by which it ends: each round moves the position by one
byte. -/
def dtls_request_loop (buf : List UInt8) (buf_size : Nat) : Loop DtlsSplit :=
  (dtls_request_while buf buf_size).toLoop (fun s => buf_size - s.byte_count) fun _ _ => dtls_request_while_decreases

/-- `extract_requests_dtls12`: a buffer without any record makes one region. -/
def extract_requests_dtls12 (buf : List UInt8) (buf_size : Nat) : List region_t :=
  regions_or_whole ((dtls_request_loop buf buf_size).exit .start).regions buf_size

section extract_requests_dtls12

variable {buf : List UInt8} {buf_size : Nat} {s t : DtlsSplit}

/-- The loop at its head: the regions cover what is before the open one, which starts at the
byte that is read next or before it. -/
structure DtlsCut (buf_size : Nat) (s : DtlsSplit) : Prop where
  covers : Covers s.regions s.cur_start
  cur_start : s.cur_start = 0 ∨ s.cur_start < s.byte_count
  within : s.byte_count < buf_size

theorem dtls_cut_start (hpos : 0 < buf_size) : DtlsCut buf_size .start :=
  ⟨⟨rfl, List.forall_mem_nil _⟩, Or.inl rfl, hpos⟩

/-- The round that breaks the loop. -/
theorem DtlsCut.last (h : DtlsCut buf_size s) (hbody : (dtls_request_body buf buf_size s).value = .done t) :
    Covers t.regions buf_size := by
  have hin := h.within
  have hstart := h.cur_start
  rcases dtls_request_body_cases buf buf_size s with ⟨_, _, hvalue⟩ | ⟨hlast, hvalue⟩ | ⟨_, hvalue⟩
  · cases hvalue.symm.trans hbody
  · cases hvalue.symm.trans hbody
    have hcovers := h.covers.concat (show s.cur_start < buf_size by omega)
    rw [show ((buf_size : Int) - 1) = (s.byte_count : Int) by omega] at hcovers
    exact hcovers
  · cases hvalue.symm.trans hbody

/-- A round that goes on keeps the regions consecutive. -/
theorem DtlsCut.next (h : DtlsCut buf_size s) (hbody : (dtls_request_body buf buf_size s).value = .yield t) :
    DtlsCut buf_size t := by
  have hin := h.within
  have hstart := h.cur_start
  rcases dtls_request_body_cases buf buf_size s with ⟨hbehind, hmore, hvalue⟩ | ⟨_, hvalue⟩ | ⟨hmore, hvalue⟩
  · cases hvalue.symm.trans hbody
    refine ⟨h.covers.concat (by omega), Or.inr (Nat.lt_succ_self _), ?_⟩
    change s.byte_count + 1 < buf_size
    omega
  · cases hvalue.symm.trans hbody
  · cases hvalue.symm.trans hbody
    refine ⟨h.covers, hstart.imp_right Nat.lt_succ_of_lt, ?_⟩
    change s.byte_count + 1 < buf_size
    omega

/-- The regions of DTLS requests are consecutive pieces of the whole buffer, whatever the byte behind it. -/
theorem covers_extract_requests_dtls12 (hpos : 0 < buf_size) : Covers (extract_requests_dtls12 buf buf_size) buf_size := by
  have hcovers : Covers ((dtls_request_loop buf buf_size).exit .start).regions buf_size := by
    refine Loop.exit_rule (I := DtlsCut buf_size) (Q := fun s => Covers s.regions buf_size) (dtls_cut_start hpos) ?_ ?_ ?_
    · exact fun s hs hstop => absurd hs.within (of_decide_eq_false hstop)
    · exact fun s t hs _ hbody => hs.last hbody
    · exact fun s t hs _ hbody => hs.next hbody
  rw [extract_requests_dtls12, regions_or_whole_eq ?_]
  · exact hcovers
  · intro hnil
    have hstop := hcovers.tiles
    rw [hnil] at hstop
    exact absurd hstop (Nat.ne_of_lt hpos)

end extract_requests_dtls12

section reads

variable {buf : List UInt8} {buf_size : Nat}

theorem reads_dtls_request_body (s : DtlsSplit) :
    (dtls_request_body buf buf_size s).reads = (finds_record buf buf_size s.byte_count).reads := by
  rw [dtls_request_body, Traced.reads_bind]
  split
  · exact List.append_nil _
  · split <;> exact List.append_nil _

/-- The loop comes to every byte. -/
theorem dtls_request_while_reaches {byte_count : Nat} (h : byte_count < buf_size) :
    ∃ s, (dtls_request_while buf buf_size).Reaches .start s ∧ s.byte_count = byte_count := by
  induction byte_count with
  | zero => exact ⟨.start, .refl _, rfl⟩
  | succ byte_count ih =>
    have hin : byte_count < buf_size := Nat.lt_of_succ_lt h
    obtain ⟨s, hs, rfl⟩ := ih hin
    have hmore : (dtls_request_while buf buf_size).more s = true := decide_eq_true hin
    rcases dtls_request_body_cases buf buf_size s with ⟨_, _, hvalue⟩ | ⟨hlast, _⟩ | ⟨_, hvalue⟩
    · exact ⟨_, hs.snoc hmore hvalue, rfl⟩
    · omega
    · exact ⟨_, hs.snoc hmore hvalue, rfl⟩

/-- The extractor of DTLS requests reads the byte behind the buffer if the last byte but one is a
content type. -/
theorem dtls_request_while_reads_iff :
    ((dtls_request_while buf buf_size).EveryRound .start fun s => ∀ i ∈ (dtls_request_body buf buf_size s).reads, i < buf_size) ↔
      ¬ (6 ≤ buf_size ∧ known_content_type (buf[buf_size - 2]?.getD 0) = true) := by
  simp only [reads_dtls_request_body, finds_record]
  constructor
  · rintro h ⟨hlong, htype⟩
    obtain ⟨s, hs, hat⟩ := @dtls_request_while_reaches buf buf_size (buf_size - 2) (by omega)
    have hin := h s hs (decide_eq_true (by omega)) (s.byte_count + 2) (by
      rw [hat, if_pos (by omega), reads_starts_record, if_pos htype]
      simp)
    omega
  · intro h s _ hmore i hi
    have hin : s.byte_count < buf_size := of_decide_eq_true hmore
    split at hi
    · rename_i hbehind
      rw [reads_starts_record] at hi
      split at hi
      · rename_i htype
        have hnot : s.byte_count ≠ buf_size - 2 := by
          rintro hat
          exact h ⟨by omega, hat ▸ htype⟩
        simp only [List.mem_cons, List.not_mem_nil, or_false] at hi
        omega
      · obtain rfl := List.mem_singleton.mp hi
        exact hin
    · cases hi

end reads

/-- The regions of DICOM and DTLS requests are consecutive pieces of the whole buffer, and those of
DICOM requests but the last one are PDUs. -/
theorem covers_extract_requests_dicom_dtls12 {buf : List UInt8} {buf_size : UInt32} (hpos : 0 < buf_size.toNat)
    (hlt : buf_size.toNat < 2 ^ 31) :
    Covers (extract_requests_dicom buf buf_size) buf_size.toNat ∧
      Covers (extract_requests_dtls12 buf buf_size.toNat) buf_size.toNat ∧
      ∀ region ∈ (extract_requests_dicom buf buf_size).dropLast, IsPdu buf region :=
  have hdicom := covers_extract_requests_dicom hpos hlt
  ⟨hdicom.1, covers_extract_requests_dtls12 hpos, hdicom.2⟩

/-- A PDU, and one whose length wraps around to one byte. -/
def wrapped_pdu : List UInt8 := [4, 0, 0, 0, 0, 1, 9, 4, 0, 0xFF, 0xFF, 0xFF, 0xFB]

/-- Both extractors cover this buffer, and all regions of the first one but the last are PDUs
modulo 2^32. -/
theorem wrapped_pdu_is_covered :
    Covers (extract_requests_dicom wrapped_pdu 13) 13 ∧ Covers (extract_requests_dtls12 wrapped_pdu 13) 13 ∧
      ∀ region ∈ (extract_requests_dicom wrapped_pdu 13).dropLast, IsPdu wrapped_pdu region :=
  @covers_extract_requests_dicom_dtls12 wrapped_pdu 13 (by decide) (by decide)

example : extract_requests_dicom wrapped_pdu 13 = [.fresh 0 6, .fresh 7 7, .fresh 8 12] := by decide

end aflnet
