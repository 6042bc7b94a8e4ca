import AflnetLegion.Lib.Loop
import AflnetLegion.Protocol.Reader

namespace aflnet

/-- `isspace` and `isdigit` in the C locale. -/
def is_space (c : UInt8) : Bool := c = 32 || (9 ≤ c && c ≤ 13)

def is_digit (c : UInt8) : Bool := 48 ≤ c && c ≤ 57

/-- The value of the digits at the start of a text, 0 if there are none. What follows the digits
is not looked at. -/
def decimal (digits : List UInt8) : Int :=
  (digits.takeWhile is_digit).foldl (fun value c => 10 * value + (c.toNat - 48 : Nat)) 0

/-- `atoi` on a string too short to overflow: white space, a sign, and the digits. -/
def atoi (string : List UInt8) : Int :=
  match string.dropWhile is_space with
  | 45 :: digits => - decimal digits
  | 43 :: digits => decimal digits
  | digits => decimal digits

/-- The state of a response extractor: the reader, and the codes that were found. -/
structure Scan extends Reader where
  state_sequence : List UInt32

namespace Scan

/-- The initial state is the code 0. -/
def start : Scan := { Reader.start with state_sequence := [0] }

/-- A byte is read into `mem`. -/
def read (s : Scan) (buf : List UInt8) : Scan := { s with toReader := s.toReader.read buf }

/-- The byte belongs to the current line. -/
def next (s : Scan) : Scan := { s with toReader := s.toReader.next }

/-- A new line begins. -/
def reset (s : Scan) : Scan := { s with toReader := s.toReader.reset }

/-- A code is added, and a new line begins. -/
def add_code (s : Scan) (message_code : UInt32) : Scan :=
  { toReader := s.toReader.reset, state_sequence := s.state_sequence ++ [message_code] }

/-- Whether the last two bytes are 0x0D0A. -/
def ends_line (s : Scan) : Bool := 0 < s.mem_count && s.memcmp (s.mem_count - 1) [0x0D, 0x0A]

/-- The response code in the three bytes from `i` on. -/
def message_code (s : Scan) (i : Nat) : UInt32 := UInt32.ofInt (atoi [s.mem i, s.mem (i + 1), s.mem (i + 2)])

end Scan

/-- The loop of the extractors for SMTP and FTP. The code of a line is that of its first three
characters, and a line whose code is 0 ends the loop. -/
def status_line_body (buf : List UInt8) (s : Scan) : ForInStep Scan :=
  let s := s.read buf
  if s.ends_line then
    if s.message_code 0 = 0 then .done s else .yield (s.add_code (s.message_code 0))
  else .yield s.next

/-- The loop of the extractor for RTSP: only a line that starts with "RTSP/" has a code, which
is read from its tenth character on. Other lines are passed over. -/
def rtsp_body (buf : List UInt8) (s : Scan) : ForInStep Scan :=
  let s := s.read buf
  if s.ends_line then
    if 5 ≤ s.mem_count ∧ s.memcmp 0 [0x52, 0x54, 0x53, 0x50, 0x2f] = true then
      if s.message_code 9 = 0 then .done s else .yield (s.add_code (s.message_code 9))
    else .yield s.reset
  else .yield s.next

/-- The four bytes that follow the query are left out as well. The flags are put
together from two signed characters. -/
def dns_body (buf : List UInt8) (s : Scan) : ForInStep Scan :=
  let s := s.read buf
  if 12 ≤ s.mem_count ∧ s.mem s.mem_count = 0 then
    let message_code := UInt32.ofInt ((s.mem 2).toInt8.toInt * 256 + (s.mem 3).toInt8.toInt)
    .yield { s.add_code message_code with byte_count := s.byte_count + 5 }
  else .yield s.next

/-- The loop that skips the payload of a TLS record, with `left` bytes to go. It stops at the
end of the buffer. -/
def skip_payload (buf_size : Nat) : Nat → Nat → Nat
  | 0, byte_count => byte_count
  | left + 1, byte_count => if byte_count < buf_size then skip_payload buf_size left (byte_count + 1) else byte_count

/-- The byte after a record is read twice, as the end of this one and the start of the
next, unless the buffer ends. A record of size 0 skips everything. -/
def tls_body (buf : List UInt8) (buf_size : Nat) (s : Scan) : ForInStep Scan :=
  let s := s.read buf
  if 6 ≤ s.mem_count then
    let content_type := s.mem 0
    let message_type := if content_type ≠ 0x17 then s.mem 5 else 0xFF
    let message_size : UInt32 := ((s.mem 3).toUInt32 <<< 8) + (s.mem 4).toUInt32
    let bytes_to_skip := message_size - 1
    let byte_count := skip_payload buf_size bytes_to_skip.toNat s.byte_count
    let byte_count := if byte_count < buf_size then byte_count - 1 else byte_count
    .yield { s.add_code ((content_type.toUInt32 <<< 8) + message_type.toUInt32) with byte_count }
  else .yield s.next

theorem skip_payload_eq (buf_size left byte_count : Nat) :
    skip_payload buf_size left byte_count = byte_count + min left (buf_size - byte_count) := by
  induction left generalizing byte_count with
  | zero => rw [skip_payload, Nat.zero_min, Nat.add_zero]
  | succ left ih =>
    rw [skip_payload]
    split
    · rw [ih]
      omega
    · omega

section body

variable {buf : List UInt8} {buf_size : Nat} {s t : Scan}

theorem status_line_body_advances (h : status_line_body buf s = .yield t) : s.byte_count < t.byte_count := by
  rw [status_line_body] at h
  split at h
  · split at h
    · cases h
    · cases h
      exact Nat.lt_succ_self _
  · cases h
    exact Nat.lt_succ_self _

theorem rtsp_body_advances (h : rtsp_body buf s = .yield t) : s.byte_count < t.byte_count := by
  rw [rtsp_body] at h
  split at h
  · split at h
    · split at h
      · cases h
      · cases h
        exact Nat.lt_succ_self _
    · cases h
      exact Nat.lt_succ_self _
  · cases h
    exact Nat.lt_succ_self _

theorem dns_body_advances (h : dns_body buf s = .yield t) : s.byte_count < t.byte_count := by
  rw [dns_body] at h
  dsimp only at h
  split at h
  · cases h
    exact Nat.lt_add_of_pos_right (Nat.succ_pos 5)
  · cases h
    exact Nat.lt_succ_self _

/-- A record of size 1 is followed by the byte that ended it: only the counter of the
bytes in `mem` goes down. -/
theorem tls_body_decreases (hmore : s.byte_count < buf_size) (h : tls_body buf buf_size s = .yield t) :
    2 * (buf_size - t.byte_count) + t.mem_count < 2 * (buf_size - s.byte_count) + s.mem_count := by
  rw [tls_body] at h
  dsimp only at h
  generalize (_ - 1 : UInt32).toNat = left at h
  split at h
  · rename_i hsix
    cases h
    have hsix' : 6 ≤ s.mem_count := hsix
    have hafter : s.byte_count + 1 ≤ skip_payload buf_size left (s.read buf).byte_count := by
      rw [skip_payload_eq]
      exact Nat.le_add_right _ _
    generalize skip_payload buf_size left (s.read buf).byte_count = byte_count at hafter
    change 2 * (buf_size - if byte_count < buf_size then byte_count - 1 else byte_count) + 0 < _
    split <;> omega
  · cases h
    change 2 * (buf_size - (s.byte_count + 1)) + (s.mem_count + 1) < _
    omega

end body

/-- A loop over the buffer that reads on in every round, so that the number of bytes left is a
measure. -/
def reading_loop (body : Scan → ForInStep Scan) (buf_size : Nat)
    (advances : ∀ s t, body s = .yield t → s.byte_count < t.byte_count) : Loop Scan where
  more := fun s => s.byte_count < buf_size
  body := body
  measure := fun s => buf_size - s.byte_count
  decreases := by
    intro s t hmore hbody
    have hlt := advances s t hbody
    have hin : s.byte_count < buf_size := of_decide_eq_true hmore
    omega

/-- The loops of the extractors, each on the first `buf_size` bytes. A round reads one byte, so
the position goes up. -/
def status_line_loop (buf : List UInt8) (buf_size : Nat) : Loop Scan :=
  reading_loop (status_line_body buf) buf_size fun _ _ => status_line_body_advances

def rtsp_loop (buf : List UInt8) (buf_size : Nat) : Loop Scan :=
  reading_loop (rtsp_body buf) buf_size fun _ _ => rtsp_body_advances

def dns_loop (buf : List UInt8) (buf_size : Nat) : Loop Scan :=
  reading_loop (dns_body buf) buf_size fun _ _ => dns_body_advances

/-- The loop for TLS. A round that ends a record can stay at the same byte, as the byte behind
the record was read with it; this happens once, since `mem` is empty then. -/
def tls_loop (buf : List UInt8) (buf_size : Nat) : Loop Scan where
  more := fun s => s.byte_count < buf_size
  body := tls_body buf buf_size
  measure := fun s => 2 * (buf_size - s.byte_count) + s.mem_count
  decreases := fun _ _ hmore hbody => tls_body_decreases (of_decide_eq_true hmore) hbody

/-- `extract_response_codes_smtp`, which begins with the initial state as all extractors of
codes do. -/
def extract_response_codes_smtp (buf : List UInt8) (buf_size : Nat) : List UInt32 :=
  ((status_line_loop buf buf_size).exit .start).state_sequence

/-- `extract_response_codes_ftp`, which is the same: the replies of FTP have three digits too.
-/
def extract_response_codes_ftp (buf : List UInt8) (buf_size : Nat) : List UInt32 :=
  ((status_line_loop buf buf_size).exit .start).state_sequence

/-- `extract_response_codes_rtsp`, which looks at the status line of a response only. -/
def extract_response_codes_rtsp (buf : List UInt8) (buf_size : Nat) : List UInt32 :=
  ((rtsp_loop buf buf_size).exit .start).state_sequence

/-- `extract_response_codes_dns`: the code of a response is made from the two bytes of its
flags. -/
def extract_response_codes_dns (buf : List UInt8) (buf_size : Nat) : List UInt32 :=
  ((dns_loop buf buf_size).exit .start).state_sequence

/-- `extract_response_codes_tls`: the code of a record is made from its content type and the
type of its message, which is 255 for application data. -/
def extract_response_codes_tls (buf : List UInt8) (buf_size : Nat) : List UInt32 :=
  ((tls_loop buf buf_size).exit .start).state_sequence

/-- The extractor for DICOM: the first byte is the response code. A response without any byte
has no states, not even the initial one. -/
def extract_response_codes_dicom (response_buf : List UInt8) (size : Nat) : List UInt32 :=
  if size = 0 then [] else [0, (response_buf.headD 0).toUInt32]

/-- The protocols whose responses are split in this module. Those of SSH and DTLS can run over
the buffer, and have modules of their own. -/
inductive protocol where
  | smtp | ftp | rtsp | dns | dicom | tls
  deriving DecidableEq, Repr

/-- The function pointer that the protocol option sets, for the protocols of this module. -/
def extract_response_codes : protocol → List UInt8 → Nat → List UInt32
  | .smtp => extract_response_codes_smtp
  | .ftp => extract_response_codes_ftp
  | .rtsp => extract_response_codes_rtsp
  | .dns => extract_response_codes_dns
  | .dicom => extract_response_codes_dicom
  | .tls => extract_response_codes_tls

namespace Scan

/-- `count` bytes are read into the current message. -/
def read_on (buf : List UInt8) : Nat → Scan → Scan
  | 0, s => s
  | count + 1, s => ((s.read_on buf count).read buf).next

variable (buf : List UInt8) (count : Nat) (s : Scan)

@[simp] theorem byte_count_read_on : (s.read_on buf count).byte_count = s.byte_count + count := by
  induction count with
  | zero => rfl
  | succ count ih => exact congrArg (· + 1) ih

@[simp] theorem mem_count_read_on : (s.read_on buf count).mem_count = s.mem_count + count := by
  induction count with
  | zero => rfl
  | succ count ih => exact congrArg (· + 1) ih

@[simp] theorem state_sequence_read_on : (s.read_on buf count).state_sequence = s.state_sequence := by
  induction count with
  | zero => rfl
  | succ count ih => exact ih

theorem line_read_on (h : s.byte_count + count ≤ buf.length) :
    (s.read_on buf count).line = s.line ++ (buf.drop s.byte_count).take count := by
  induction count with
  | zero => exact (List.append_nil _).symm
  | succ count ih =>
    have hline : (s.read_on buf (count + 1)).line = (s.read_on buf count).line ++ [buf[s.byte_count + count]?.getD 0] := by
      rw [← byte_count_read_on buf count s]
      exact (s.read_on buf count).toReader.line_next_read buf
    rw [hline, ih (by omega), List.append_assoc, List.take_add_one, List.getElem?_drop, List.getElem?_eq_getElem (by omega)]
    rfl

variable {buf count s}

/-- A loop that reads on until then. -/
theorem exit_read_on {loop : Loop Scan} (h : ∀ n, n < count → loop.more (s.read_on buf n) = true ∧
    loop.body (s.read_on buf n) = .yield (s.read_on buf (n + 1))) : loop.exit s = loop.exit (s.read_on buf count) := by
  induction count with
  | zero => rfl
  | succ count ih =>
    obtain ⟨hmore, hbody⟩ := h count (Nat.lt_succ_self _)
    rw [ih fun n hn => h n (Nat.lt_succ_of_lt hn), Loop.exit_of_yield hmore hbody]

end Scan

end aflnet
