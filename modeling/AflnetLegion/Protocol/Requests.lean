import AflnetLegion.Data
import AflnetLegion.Lib.Loop
import AflnetLegion.Protocol.Reader

namespace aflnet

/-- The state of a request extractor: the reader, the region that is open, and the regions that
were cut. -/
structure Split extends Reader where
  cur_start : Nat
  cur_end : Nat
  regions : List region_t

namespace Split

/-- The state before the first round. -/
def start : Split := { Reader.start with cur_start := 0, cur_end := 0, regions := [] }

/-- A byte is read into `mem`. -/
def read (s : Split) (buf : List UInt8) : Split := { s with toReader := s.toReader.read buf }

/-- Whether the last bytes of a long enough message are the terminator. -/
def ends_request (s : Split) (terminator : List UInt8) : Bool :=
  terminator.length - 1 < s.mem_count && s.memcmp (s.mem_count - (terminator.length - 1)) terminator

/-- The region of the current message. Buffers are shorter than 2^31 bytes. -/
def region (s : Split) : region_t := .fresh s.cur_start s.cur_end

/-- The region is added, and the next message starts behind it. What `mem` holds stays. -/
def end_request (s : Split) : Split where
  toReader := s.toReader.reset
  cur_start := s.cur_end + 1
  cur_end := s.cur_end + 1
  regions := s.regions ++ [s.region]

/-- The byte belongs to the current message. -/
def next (s : Split) : Split := { s with toReader := s.toReader.next, cur_end := s.cur_end + 1 }

end Split

/-- The loop's body. The last byte counts as reached when the one before it was read and did not
end a message, as the position is advanced first. -/
def request_body (terminator buf : List UInt8) (buf_size : Nat) (s : Split) : ForInStep Split :=
  let s := s.read buf
  if s.ends_request terminator then .yield s.end_request
  else
    let s := s.next
    if s.cur_end = buf_size - 1 then .done { s with regions := s.regions ++ [s.region] } else .yield s

theorem request_body_advances {terminator buf : List UInt8} {buf_size : Nat} {s t : Split}
    (h : request_body terminator buf buf_size s = .yield t) : s.byte_count < t.byte_count := by
  rw [request_body] at h
  dsimp only at h
  split at h
  · cases h
    exact Nat.lt_succ_self _
  · split at h
    · cases h
    · cases h
      exact Nat.lt_succ_self _

/-- The loop of the extractors for text protocols. Each round reads one byte, and the position
goes up. -/
def request_loop (terminator buf : List UInt8) (buf_size : Nat) : Loop Split where
  more := fun s => s.byte_count < buf_size
  body := request_body terminator buf buf_size
  measure := fun s => buf_size - s.byte_count
  decreases := by
    intro s t hmore hbody
    have hlt := request_body_advances hbody
    have hin : s.byte_count < buf_size := of_decide_eq_true hmore
    omega

/-- The extractors of the text protocols, which differ in how a request ends. One region is made
for a buffer in which no region was found. -/
def extract_requests_by (terminator buf : List UInt8) (buf_size : Nat) : List region_t :=
  let regions := ((request_loop terminator buf buf_size).exit .start).regions
  if regions.length = 0 ∧ 0 < buf_size then [.fresh 0 ((buf_size : Int) - 1)] else regions

/-- `extract_requests_smtp`: a request ends with CR LF. -/
def extract_requests_smtp (buf : List UInt8) (buf_size : Nat) : List region_t :=
  extract_requests_by [0x0D, 0x0A] buf buf_size

/-- `extract_requests_ftp`: the same as for SMTP. -/
def extract_requests_ftp (buf : List UInt8) (buf_size : Nat) : List region_t :=
  extract_requests_by [0x0D, 0x0A] buf buf_size

/-- `extract_requests_rtsp`: a request ends with an empty line. The body that can follow it is
taken for another request. -/
def extract_requests_rtsp (buf : List UInt8) (buf_size : Nat) : List region_t :=
  extract_requests_by [0x0D, 0x0A, 0x0D, 0x0A] buf buf_size

/-- The protocols whose requests are lines, or blocks of lines, and whose extractors differ in
the terminator only. -/
inductive text_protocol where
  | smtp | ftp | rtsp
  deriving DecidableEq, Repr

namespace text_protocol

/-- What ends a request. -/
def terminator : text_protocol → List UInt8
  | .smtp => [0x0D, 0x0A]
  | .ftp => [0x0D, 0x0A]
  | .rtsp => [0x0D, 0x0A, 0x0D, 0x0A]

/-- The function pointer that the protocol option sets, for the three protocols with text
messages. -/
def extract_requests : text_protocol → List UInt8 → Nat → List region_t
  | .smtp => extract_requests_smtp
  | .ftp => extract_requests_ftp
  | .rtsp => extract_requests_rtsp

end text_protocol

end aflnet
