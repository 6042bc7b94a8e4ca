import AflnetLegion.Protocol.Monotone
import Mathlib.Data.Nat.Find

namespace aflnet

/-- One response, with the question that it repeats: a header of 12 bytes, the name without its
null byte, the 4 bytes of the question, and the answers. -/
structure dns_response where
  header : List UInt8
  name : List UInt8
  question : List UInt8
  answers : List UInt8
  header_length : header.length = 12
  null_not_mem_name : 0 ∉ name
  question_length : question.length = 4

namespace dns_response

variable (r : dns_response)

/-- The bytes of a response. -/
def bytes : List UInt8 := r.header ++ r.name ++ 0 :: (r.question ++ r.answers)

/-- A byte of its header. -/
def flag (i : Nat) : UInt8 := r.header[i]?.getD 0

/-- The flags as a number in network byte order. -/
def flags : UInt32 := (r.flag 2).toUInt32 * 256 + (r.flag 3).toUInt32

end dns_response

theorem lt_128_iff (b : UInt8) : b < 128 ↔ b.toNat < 128 := UInt8.lt_iff_toNat_lt

/-- A byte with the high bit set is a negative character. -/
theorem toInt_toInt8 (b : UInt8) : b.toInt8.toInt = if b.toNat < 128 then (b.toNat : Int) else b.toNat - 256 := by
  have hcond : b.toInt8.toInt = if 2 * b.toNat < 2 ^ 8 then (b.toNat : Int) else b.toNat - (2 ^ 8 : Nat) :=
    BitVec.toInt_eq_toNat_cond b.toBitVec
  rw [hcond]
  split <;> split <;> omega

/-- Two signed characters make the number of two unsigned ones if both high bits are clear. -/
theorem signed_flags_eq_iff (b2 b3 : UInt8) :
    UInt32.ofInt (b2.toInt8.toInt * 256 + b3.toInt8.toInt) = b2.toUInt32 * 256 + b3.toUInt32 ↔ b2 < 128 ∧ b3 < 128 := by
  have h2 := b2.toNat_lt
  have h3 := b3.toNat_lt
  have hflags : (b2.toUInt32 * 256 + b3.toUInt32).toNat = b2.toNat * 256 + b3.toNat := by
    have hmul : (b2.toUInt32 * 256).toNat = b2.toNat * 256 := by
      rw [UInt32.toNat_mul]
      change b2.toNat * 256 % 2 ^ 32 = _
      omega
    rw [toNat_add_of_lt (by rw [hmul]; change _ + b3.toNat < _; omega), hmul]
    rfl
  have hofInt : ∀ code : Int, (UInt32.ofInt code).toNat = (code % 4294967296).toNat % 4294967296 := fun _ => rfl
  rw [← UInt32.toNat_inj, hflags, hofInt, toInt_toInt8, toInt_toInt8, lt_128_iff, lt_128_iff]
  split <;> split <;> omega

section dns_body

variable {buf : List UInt8} {buf_size : Nat} {s : Scan}

/-- No round on the next `count` bytes finds a null byte behind a header. -/
theorem dns_read_on {count : Nat} (hstop : s.byte_count + count ≤ buf_size)
    (hnot : ∀ n, n < count → 12 ≤ s.mem_count + n → buf[s.byte_count + n]?.getD 0 ≠ 0) :
    (dns_loop buf buf_size).exit s = (dns_loop buf buf_size).exit (s.read_on buf count) := by
  refine Scan.exit_read_on fun n hn => ⟨decide_eq_true ?_, if_neg ?_⟩
  · rw [Scan.byte_count_read_on]
    omega
  · rintro ⟨hlong, hnull⟩
    have hbyte : ((s.read_on buf n).read buf).mem (s.read_on buf n).mem_count = buf[s.byte_count + n]?.getD 0 := by
      rw [← Scan.byte_count_read_on]
      exact (s.read_on buf n).toReader.mem_read buf
    refine hnot n hn ?_ (hbyte.symm.trans hnull)
    rw [← Scan.mem_count_read_on buf n s]
    exact hlong

/-- A null byte behind a header adds the flags of the message, and 5 bytes behind it are skipped. -/
theorem dns_body_null {count : Nat} (hlong : 12 ≤ s.mem_count + count) (hnull : buf[s.byte_count + count]?.getD 0 = 0) :
    ∃ t, dns_body buf (s.read_on buf count) = .yield t ∧ t.byte_count = s.byte_count + count + 6 ∧ t.mem_count = 0 ∧
      t.state_sequence = s.state_sequence ++ [UInt32.ofInt
        (((s.read_on buf count).mem 2).toInt8.toInt * 256 + ((s.read_on buf count).mem 3).toInt8.toInt)] := by
  rw [← Scan.mem_count_read_on buf count s] at hlong
  have hbyte : ((s.read_on buf count).read buf).mem (s.read_on buf count).mem_count = 0 := by
    rw [← Scan.byte_count_read_on buf count s] at hnull
    exact ((s.read_on buf count).toReader.mem_read buf).trans hnull
  have hflag : ∀ i, i < 12 → ((s.read_on buf count).read buf).mem i = (s.read_on buf count).mem i := fun i hi =>
    Function.update_of_ne (Nat.ne_of_lt (Nat.lt_of_lt_of_le hi hlong)) ..
  refine ⟨_, if_pos ⟨hlong, hbyte⟩, ?_, rfl, ?_⟩
  · change (s.read_on buf count).byte_count + 1 + 5 = _
    rw [Scan.byte_count_read_on]
  · rw [hflag 2 (by decide), hflag 3 (by decide)]
    change (s.read_on buf count).state_sequence ++ _ = _
    rw [Scan.state_sequence_read_on]

variable (buf buf_size) in

theorem dns_loop_grows : (dns_loop buf buf_size).Grows Scan.state_sequence := fun _ _ _ => dns_body_grows

theorem null_mem_iff (hsize : buf_size ≤ buf.length) (start : Nat) :
    0 ∈ (buf.take buf_size).drop start ↔ ∃ k, start + k < buf_size ∧ buf[start + k]?.getD 0 = 0 := by
  rw [List.mem_iff_getElem?]
  refine exists_congr fun k => ?_
  rw [List.getElem?_drop, List.getElem?_take]
  split
  · rename_i hin
    rw [List.getElem?_eq_getElem (by omega), and_iff_right hin]
    exact Option.some_inj
  · rename_i hout
    exact iff_of_false (by simp) fun hboth => hout hboth.1

/-- From the start of a message on, no code is found if and only if there is no null byte behind the first 12 bytes. -/
theorem dns_no_code_iff (hsize : buf_size ≤ buf.length) (hmem : s.mem_count = 0) :
    ((dns_loop buf buf_size).exit s).state_sequence = s.state_sequence ↔ 0 ∉ (buf.take buf_size).drop (s.byte_count + 12) := by
  rw [null_mem_iff hsize]
  constructor
  · intro hsame hnull
    -- The first null byte adds a code.
    have hex : ∃ n, 12 ≤ n ∧ s.byte_count + n < buf_size ∧ buf[s.byte_count + n]?.getD 0 = 0 := by
      obtain ⟨k, hin, hbyte⟩ := hnull
      exact ⟨12 + k, Nat.le_add_right .., by omega, by rw [← Nat.add_assoc]; exact hbyte⟩
    obtain ⟨hlong, hin, hbyte⟩ := Nat.find_spec hex
    have hfirst := fun n hn => @Nat.find_min _ _ hex n hn
    generalize Nat.find hex = count at hlong hin hbyte hfirst
    obtain ⟨t, hbody, -, -, hcodes⟩ := dns_body_null (s := s) (by omega) hbyte
    have hmore : (dns_loop buf buf_size).more (s.read_on buf count) = true := by
      refine decide_eq_true ?_
      rw [Scan.byte_count_read_on]
      exact hin
    have hread : (dns_loop buf buf_size).exit s = (dns_loop buf buf_size).exit (s.read_on buf count) := by
      refine dns_read_on (Nat.le_of_lt hin) fun n hn hn12 hzero => hfirst n hn ⟨by omega, by omega, hzero⟩
    have hle := ((dns_loop_grows buf buf_size).exit t).length_le
    rw [← Loop.exit_of_yield hmore hbody, ← hread, hsame, hcodes, List.length_append] at hle
    exact absurd hle (Nat.not_succ_le_self _)
  · intro hnone
    by_cases hin : s.byte_count ≤ buf_size
    · have hread : (dns_loop buf buf_size).exit s = (dns_loop buf buf_size).exit (s.read_on buf (buf_size - s.byte_count)) := by
        refine dns_read_on (by omega) fun n hn hn12 hzero => hnone ⟨n - 12, by omega, ?_⟩
        rw [← hzero]
        congr 2
        omega
      rw [hread, Loop.exit_of_stop, Scan.state_sequence_read_on]
      refine decide_eq_false ?_
      rw [Scan.byte_count_read_on]
      omega
    · rw [Loop.exit_of_stop (decide_eq_false (by omega))]

end dns_body

section dns_response

variable (r : dns_response) (behind : List UInt8)

/-- The header and the name. -/
theorem dns_response.bytes_eq : r.bytes = (r.header ++ r.name) ++ 0 :: (r.question ++ r.answers) := rfl

theorem dns_response.length_header_name : (r.header ++ r.name).length = 12 + r.name.length := by
  rw [List.length_append, r.header_length]

theorem dns_response.length_bytes : r.bytes.length = 12 + r.name.length + 5 + r.answers.length := by
  rw [r.bytes_eq, List.length_append, r.length_header_name, List.length_cons, List.length_append, r.question_length]
  omega

/-- The bytes of the answers but the first 13. -/
theorem dns_response.drop_bytes : r.bytes.drop (12 + r.name.length + 6 + 12) = r.answers.drop 13 := by
  have hbytes : r.bytes = (r.header ++ r.name ++ 0 :: r.question) ++ r.answers := by
    rw [r.bytes_eq, List.append_assoc _ (0 :: r.question), List.cons_append]
  have hlength : (r.header ++ r.name ++ 0 :: r.question).length = 12 + r.name.length + 5 := by
    rw [List.length_append, r.length_header_name, List.length_cons, r.question_length]
  have hstart : 12 + r.name.length + 6 + 12 = (r.header ++ r.name ++ 0 :: r.question).length + 13 := by
    rw [hlength]
  rw [hstart, hbytes, List.drop_length_add_append]

/-- Within the name no null byte is read, so no round ends the message there. -/
theorem dns_response.name_read {n : Nat} (hlong : 12 ≤ n) (hin : n < 12 + r.name.length) : (r.bytes ++ behind)[n]?.getD 0 ≠ 0 := by
  intro hnull
  have hname : n - 12 < r.name.length := by omega
  rw [r.bytes_eq, List.append_assoc, List.getElem?_append_left (by rw [r.length_header_name]; exact hin),
    List.getElem?_append_right (by rw [r.header_length]; exact hlong), r.header_length, List.getElem?_eq_getElem hname] at hnull
  exact r.null_not_mem_name (hnull ▸ List.getElem_mem hname)

/-- The null byte behind the name is the first one behind the header. -/
theorem dns_response.null_read : (r.bytes ++ behind)[12 + r.name.length]?.getD 0 = 0 := by
  rw [r.bytes_eq, List.append_assoc, ← r.length_header_name, List.getElem?_append_right (Nat.le_refl _), Nat.sub_self]
  rfl

/-- When the name has been read the flags are in `mem`. -/
theorem dns_response.flag_read {i : Nat} (hi : i < 12) :
    (Scan.start.read_on (r.bytes ++ behind) (12 + r.name.length)).mem i = r.flag i := by
  have hcount : i < (Scan.start.read_on (r.bytes ++ behind) (12 + r.name.length)).mem_count := by
    rw [Scan.mem_count_read_on]
    change i < 0 + (12 + r.name.length)
    omega
  have hle : 0 + (12 + r.name.length) ≤ (r.bytes ++ behind).length := by
    rw [List.length_append, r.length_bytes]
    omega
  rw [Reader.mem_eq_getD hcount, Scan.line_read_on _ _ _ hle]
  change (((r.bytes ++ behind).drop 0).take (12 + r.name.length))[i]?.getD 0 = r.flag i
  rw [List.drop_zero, List.getElem?_take_of_lt (by omega), r.bytes_eq, List.append_assoc, List.append_assoc,
    List.getElem?_append_left (by rw [r.header_length]; exact hi), dns_response.flag]

/-- The first code is made of the flags, and the next message starts behind the first byte of the answers. -/
theorem dns_response.exit_eq : ∃ t, (dns_loop (r.bytes ++ behind) r.bytes.length).exit .start =
      (dns_loop (r.bytes ++ behind) r.bytes.length).exit t ∧ t.byte_count = 12 + r.name.length + 6 ∧ t.mem_count = 0 ∧
      t.state_sequence = [0, UInt32.ofInt ((r.flag 2).toInt8.toInt * 256 + (r.flag 3).toInt8.toInt)] := by
  have hlength := r.length_bytes
  have hzero : ∀ n, Scan.start.byte_count + n = n := Nat.zero_add
  have hlong : 12 ≤ Scan.start.mem_count + (12 + r.name.length) := by
    change 12 ≤ 0 + (12 + r.name.length)
    omega
  have hread : (dns_loop (r.bytes ++ behind) r.bytes.length).exit .start =
      (dns_loop (r.bytes ++ behind) r.bytes.length).exit (Scan.start.read_on (r.bytes ++ behind) (12 + r.name.length)) := by
    refine dns_read_on ?_ fun n hn hn12 => ?_
    · rw [hzero]
      omega
    · rw [hzero]
      exact r.name_read behind (Nat.zero_add n ▸ hn12) hn
  have hnull : (r.bytes ++ behind)[Scan.start.byte_count + (12 + r.name.length)]?.getD 0 = 0 := by
    rw [hzero]
    exact r.null_read behind
  obtain ⟨t, hbody, hcount, hmem, hcodes⟩ := dns_body_null hlong hnull
  have hmore : (dns_loop (r.bytes ++ behind) r.bytes.length).more
      (Scan.start.read_on (r.bytes ++ behind) (12 + r.name.length)) = true := by
    refine decide_eq_true ?_
    rw [Scan.byte_count_read_on, hzero]
    omega
  rw [hzero] at hcount
  rw [r.flag_read behind (by decide), r.flag_read behind (by decide)] at hcodes
  exact ⟨t, hread.trans (Loop.exit_of_yield hmore hbody), hcount, hmem, hcodes⟩

/-- The response is one code if and only if the high bits of its flags are clear, which are read
as signed characters, and its answers have no null byte from the 14th byte on. What lies behind
the response does not matter. -/
theorem extract_response_codes_dns_iff : extract_response_codes_dns (r.bytes ++ behind) r.bytes.length = [0, r.flags] ↔
    (r.flag 2 < 128 ∧ r.flag 3 < 128) ∧ 0 ∉ r.answers.drop 13 := by
  obtain ⟨t, hexit, hcount, hmem, hcodes⟩ := r.exit_eq behind
  have hsize : r.bytes.length ≤ (r.bytes ++ behind).length := by
    rw [List.length_append]
    exact Nat.le_add_right ..
  have hrest := dns_no_code_iff hsize hmem
  rw [hcount, List.take_left, r.drop_bytes] at hrest
  rw [← signed_flags_eq_iff, ← hrest, extract_response_codes_dns, hexit, hcodes]
  constructor
  · intro heq
    -- The first code is there already, and there is no second one.
    have hstart := (dns_loop_grows (r.bytes ++ behind) r.bytes.length).exit t
    rw [heq, hcodes] at hstart
    have hsame := hstart.eq_of_length rfl
    exact ⟨(List.cons.inj (List.cons.inj hsame).2).1, heq.trans hsame.symm⟩
  · rintro ⟨hflags, hsame⟩
    rw [hsame, hflags]
    rfl

/-- A response with no answers to the query of a name. -/
def unanswered_query : dns_response :=
  ⟨[0, 1, 0x81, 0x80, 0, 1, 0, 0, 0, 0, 0, 0], [1, 97], [0, 1, 0, 1], [], rfl, by decide, rfl⟩

/-- The flags of a response are two negative characters. -/
theorem response_flags_are_signed :
    extract_response_codes_dns unanswered_query.bytes unanswered_query.bytes.length = [0, 0xFFFF8080] ∧ unanswered_query.flags = 0x8180 := by
  decide

end dns_response

end aflnet
