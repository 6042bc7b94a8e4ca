import AflnetLegion.Protocol.Responses

namespace aflnet

/-- The lines of a text, each with the CRLF that ends it. What follows the last CRLF is not a line. -/
def crlf_lines : List UInt8 → List (List UInt8)
  | 0x0D :: 0x0A :: text => [0x0D, 0x0A] :: crlf_lines text
  | c :: text => (crlf_lines text).modifyHead (c :: ·)
  | [] => []

section crlf_lines

variable {line text : List UInt8}

theorem crlf_lines_cons {c : UInt8} (hnot : ¬ [0x0D, 0x0A] <+: c :: text) :
    crlf_lines (c :: text) = (crlf_lines text).modifyHead (c :: ·) := by
  rw [crlf_lines]
  rintro rest rfl rfl
  exact hnot (List.prefix_append [0x0D, 0x0A] rest)

theorem ends_of_mem_crlf_lines (h : line ∈ crlf_lines text) : [0x0D, 0x0A] <:+ line := by
  induction text using crlf_lines.induct generalizing line with
  | case1 text ih =>
    rcases List.mem_cons.mp h with rfl | hrest
    · exact List.suffix_rfl
    · exact ih hrest
  | case2 c text hnot ih =>
    rw [crlf_lines_cons fun hstarts => by obtain ⟨rest, hrest⟩ := hstarts; cases hrest; exact hnot rest rfl rfl] at h
    cases hlines : crlf_lines text with
    | nil => simp [hlines] at h
    | cons first lines =>
      rw [hlines, List.modifyHead_cons, List.mem_cons] at h
      rcases h with rfl | hrest
      · exact (ih (hlines ▸ List.mem_cons_self ..)).trans (List.suffix_cons ..)
      · exact ih (hlines ▸ List.mem_cons_of_mem _ hrest)
  | case3 => simp [crlf_lines] at h

theorem crlf_lines_of_open (hopen : ¬ [0x0D, 0x0A] <:+: line) : crlf_lines line = [] := by
  induction line with
  | nil => rfl
  | cons c line ih =>
    rw [crlf_lines_cons fun hstarts => hopen hstarts.isInfix, ih fun hin => hopen (hin.trans (List.suffix_cons ..).isInfix)]
    rfl

/-- The first line of a text is the one that the first CRLF ends. -/
theorem crlf_lines_append (hopen : ¬ [0x0D, 0x0A] <:+: line ++ [0x0D]) :
    crlf_lines (line ++ 0x0D :: 0x0A :: text) = (line ++ [0x0D, 0x0A]) :: crlf_lines text := by
  induction line with
  | nil => simp [crlf_lines]
  | cons c line ih =>
    rw [List.cons_append, crlf_lines_cons, ih fun hin => hopen (hin.trans (List.suffix_cons ..).isInfix)]
    · rfl
    · intro hstarts
      obtain ⟨rfl, hsecond⟩ := List.cons_prefix_cons.mp hstarts
      cases line with
      | nil => simp at hsecond
      | cons d line =>
        obtain ⟨rfl, -⟩ := List.cons_prefix_cons.mp hsecond
        exact hopen ⟨[], line ++ [0x0D], rfl⟩

theorem crlf_lines_of_ends {c : UInt8} (hopen : ¬ [0x0D, 0x0A] <:+: line) (hends : [0x0D, 0x0A] <:+ line ++ [c]) :
    crlf_lines (line ++ c :: text) = (line ++ [c]) :: crlf_lines text := by
  obtain ⟨start, hstart⟩ := hends
  have hsplit : (start ++ [0x0D]) ++ [0x0A] = line ++ [c] := by simpa using hstart
  obtain ⟨rfl, hlast⟩ := List.append_inj' hsplit rfl
  obtain rfl := List.singleton_inj.mp hlast
  rw [List.append_assoc, List.append_assoc]
  exact crlf_lines_append hopen

end crlf_lines

/-- The response code in a text of up to three bytes. -/
def code_of (text : List UInt8) : UInt32 := UInt32.ofInt (atoi text)

/-- The code in the three bytes of a line from `offset` on, or in as many of them as there are. -/
def line_code (offset : Nat) (line : List UInt8) : UInt32 := code_of ((line.drop offset).take 3)

/-- The codes of the selected lines, up to the first code 0. -/
def line_codes (offset : Nat) (selected : List UInt8 → Bool) (lines : List (List UInt8)) : List UInt32 :=
  ((lines.filter selected).map (line_code offset)).takeWhile (· ≠ 0)

/-- `mem` once some bytes were written over its first ones. -/
def overwrite (mem : Nat → UInt8) (bytes : List UInt8) (i : Nat) : UInt8 := bytes[i]?.getD (mem i)

/-- Byte `i` of the last line that has one, or else of `mem`. -/
def last_byte (mem : Nat → UInt8) (lines : List (List UInt8)) (i : Nat) : UInt8 :=
  (lines.reverse.findSome? fun earlier => earlier[i]?).getD (mem i)

/-- Of the three bytes from `offset` on, those that are behind a line. -/
def bytes_behind (offset : Nat) (mem : Nat → UInt8) (line : List UInt8) : List UInt8 :=
  ((List.range' offset 3).drop (line.length - offset)).map mem

/-- Where a selected line is too short for its code, the bytes behind it, left there by
earlier lines, do not make a code. -/
def NoCodeBehind (offset : Nat) (selected : List UInt8 → Bool) (mem : Nat → UInt8) (lines : List (List UInt8)) : Prop :=
  ∀ before line after, lines = before ++ line :: after → selected line = true →
    (∀ earlier ∈ before, selected earlier = true → line_code offset earlier ≠ 0) →
      code_of (bytes_behind offset (last_byte mem before) line) = 0

section mem

variable {offset : Nat} {selected : List UInt8 → Bool} {mem : Nat → UInt8} {line : List UInt8} {lines : List (List UInt8)}

theorem last_byte_cons : last_byte mem (line :: lines) = last_byte (overwrite mem line) lines := by
  funext i
  rw [last_byte, last_byte, List.reverse_cons, List.findSome?_append, overwrite]
  cases lines.reverse.findSome? (fun earlier => earlier[i]?) with
  | none => simp
  | some byte => rfl

/-- Three bytes of the memory after a line was written: those of the line, and behind it those
that were there. -/
theorem map_overwrite (count : Nat) : (List.range' offset count).map (overwrite mem line) =
    (line.drop offset).take count ++ ((List.range' offset count).drop (line.length - offset)).map mem := by
  induction count generalizing offset with
  | zero => simp
  | succ count ih =>
    rw [List.range'_succ, List.map_cons, ih]
    by_cases hin : offset < line.length
    · have hbehind : line.length - offset = line.length - (offset + 1) + 1 := by omega
      rw [List.drop_eq_getElem_cons hin, hbehind, List.drop_succ_cons, List.take_succ_cons, overwrite,
        List.getElem?_eq_getElem hin]
      rfl
    · have hout : line.length ≤ offset := Nat.le_of_not_lt hin
      have hnone : line.drop offset = [] := List.drop_eq_nil_of_le hout
      have hnone' : line.drop (offset + 1) = [] := List.drop_eq_nil_of_le (by omega)
      have hbehind : line.length - offset = 0 := by omega
      have hbehind' : line.length - (offset + 1) = 0 := by omega
      rw [hnone, hnone', hbehind, hbehind', overwrite, List.getElem?_eq_none hout]
      simp

theorem atoi_append {spaces : List UInt8} (h : ∀ c ∈ spaces, is_space c = true) (text : List UInt8) :
    atoi (spaces ++ text) = atoi text := by
  rw [atoi, atoi, List.dropWhile_append_of_pos h]

/-- A line that is too short for its code ends with CRLF where the code would be. -/
theorem spaces_of_short (hends : [0x0D, 0x0A] <:+ line) (hshort : line.length < offset + 3) :
    ∀ c ∈ (line.drop offset).take 3, is_space c = true := by
  intro c hc
  have hlength : (line.drop offset).length ≤ [(0x0D : UInt8), 0x0A].length := by
    rw [List.length_drop]
    change line.length - offset ≤ 2
    omega
  have hsuffix := List.suffix_of_suffix_length_le (List.drop_suffix offset line) hends hlength
  have hmem := hsuffix.subset (List.take_subset 3 _ hc)
  simp only [List.mem_cons, List.not_mem_nil, or_false] at hmem
  rcases hmem with rfl | rfl <;> rfl

/-- The code in memory is that of the line, or that of the bytes behind it. -/
theorem code_overwrite (hends : [0x0D, 0x0A] <:+ line) :
    code_of ((List.range' offset 3).map (overwrite mem line)) =
      if line.length < offset + 3 then code_of (bytes_behind offset mem line) else line_code offset line := by
  rw [map_overwrite]
  split
  · rename_i hshort
    rw [code_of, atoi_append (spaces_of_short hends hshort)]
    rfl
  · rename_i hlong
    have hnone : (List.range' offset 3).drop (line.length - offset) = [] :=
      List.drop_eq_nil_of_le (by rw [List.length_range']; omega)
    rw [hnone, List.map_nil, List.append_nil]
    rfl

/-- A line that is too short for a code of its own has the code 0: what it has there is at most
CRLF. -/
theorem line_code_of_short (hends : [0x0D, 0x0A] <:+ line) (hshort : line.length < offset + 3) : line_code offset line = 0 := by
  rw [line_code, code_of, ← List.append_nil (List.take ..), atoi_append (spaces_of_short hends hshort)]
  rfl

theorem bytes_behind_of_long (hlong : offset + 3 ≤ line.length) : bytes_behind offset mem line = [] := by
  rw [bytes_behind, List.drop_eq_nil_of_le (by rw [List.length_range']; omega)]
  rfl

/-- The condition on the first line and on the others, which begin in the memory that it leaves.
After a code 0 no further line matters. -/
theorem noCodeBehind_cons : NoCodeBehind offset selected mem (line :: lines) ↔
    (selected line = true → code_of (bytes_behind offset mem line) = 0) ∧
      ((selected line = true → line_code offset line ≠ 0) → NoCodeBehind offset selected (overwrite mem line) lines) := by
  constructor
  · intro h
    simp only [NoCodeBehind, ← last_byte_cons]
    refine ⟨fun hselected => h [] line lines rfl hselected fun _ hnone => absurd hnone List.not_mem_nil, ?_⟩
    intro hcode before short after heq hselected hearlier
    refine h (line :: before) short after (congrArg (line :: ·) heq) hselected ?_
    rintro earlier (- | ⟨-, hin⟩)
    · exact hcode
    · exact hearlier earlier hin
  · rintro ⟨hfirst, hrest⟩ before short after heq hselected hearlier
    cases before with
    | nil =>
      cases heq
      exact hfirst hselected
    | cons first before =>
      cases heq
      rw [last_byte_cons]
      refine hrest (hearlier _ (List.mem_cons_self ..)) before short after rfl hselected fun earlier hin => ?_
      exact hearlier earlier (List.mem_cons_of_mem _ hin)

theorem noCodeBehind_of_long (h : ∀ line ∈ lines, selected line = true → offset + 3 ≤ line.length) :
    NoCodeBehind offset selected mem lines := by
  rintro before line after rfl hselected -
  rw [bytes_behind_of_long (h line (by simp) hselected)]
  rfl

/-- The codes that are found when each line is written over the ones before it. -/
def codes_found (offset : Nat) (selected : List UInt8 → Bool) : (Nat → UInt8) → List (List UInt8) → List UInt32
  | _, [] => []
  | mem, line :: lines =>
    let mem := overwrite mem line
    if selected line then
      let message_code := code_of ((List.range' offset 3).map mem)
      if message_code = 0 then [] else message_code :: codes_found offset selected mem lines
    else codes_found offset selected mem lines

/-- What is found are the codes of the lines themselves if and only if nothing behind a short line makes a code. -/
theorem codes_found_eq_iff (hends : ∀ line ∈ lines, [0x0D, 0x0A] <:+ line) :
    codes_found offset selected mem lines = line_codes offset selected lines ↔ NoCodeBehind offset selected mem lines := by
  induction lines generalizing mem with
  | nil => exact iff_of_true rfl fun before line after heq => absurd heq (by simp)
  | cons line lines ih =>
    have hline := hends line (List.mem_cons_self ..)
    have hlines := @ih (overwrite mem line) fun line hin => hends line (List.mem_cons_of_mem _ hin)
    rw [noCodeBehind_cons, codes_found]
    dsimp only
    cases hselected : selected line with
    | false => simpa [line_codes, hselected] using hlines
    | true =>
      rw [if_pos rfl, code_overwrite hline]
      by_cases hshort : line.length < offset + 3
      · -- The line's own code is 0, and no later line counts.
        have hcode := line_code_of_short hline hshort
        simp [line_codes, hselected, hcode, hshort]
      · have hbehind : code_of (bytes_behind offset mem line) = 0 := by
          rw [bytes_behind_of_long (Nat.le_of_not_lt hshort)]
          rfl
        rw [if_neg hshort]
        by_cases hcode : line_code offset line = 0
        · simp [line_codes, hselected, hcode, hbehind]
        · simpa [line_codes, hselected, hcode, hbehind] using hlines

end mem

/-- A round of an extractor that takes the code from the three bytes at `offset` of the selected lines. -/
def line_body (offset : Nat) (selected : List UInt8 → Bool) (buf : List UInt8) (s : Scan) : ForInStep Scan :=
  let line := (s.read buf).next.line
  let s := s.read buf
  if [0x0D, 0x0A] <:+ line then
    if selected line then
      if s.message_code offset = 0 then .done s else .yield (s.add_code (s.message_code offset))
    else .yield s.reset
  else .yield s.next

/-- All lines are selected, as for SMTP and FTP. -/
def every_line (_ : List UInt8) : Bool := true

/-- Whether a line starts with "RTSP/". -/
def rtsp_line (line : List UInt8) : Bool := [0x52, 0x54, 0x53, 0x50, 0x2f].isPrefixOf line

section line_body

variable {buf : List UInt8} {s : Scan}

/-- The test for the end of a line sees the byte that was just read. -/
theorem ends_line_read : (s.read buf).ends_line = true ↔ [0x0D, 0x0A] <:+ (s.read buf).next.line := by
  have hlength : (s.read buf).next.line.length = s.mem_count + 1 := (s.read buf).next.length_line
  rw [Scan.ends_line, Bool.and_eq_true, decide_eq_true_iff]
  by_cases hpos : 0 < s.mem_count
  · have htwo : [(0x0D : UInt8), 0x0A].length ≤ (s.read buf).next.mem_count := Nat.succ_le_succ hpos
    exact (and_iff_right hpos).trans (Reader.memcmp_iff htwo)
  · refine iff_of_false (fun hboth => hpos hboth.1) fun hends => ?_
    have hle := hends.length_le
    rw [hlength] at hle
    change 2 ≤ s.mem_count + 1 at hle
    omega

theorem status_line_body_eq : status_line_body buf s = line_body 0 every_line buf s := by
  simp only [status_line_body, line_body, ends_line_read, every_line, if_true]

/-- A line that starts with "RTSP/" is long enough for the comparison. -/
theorem starts_rtsp_iff (hends : [0x0D, 0x0A] <:+ (s.read buf).next.line) :
    (5 ≤ (s.read buf).mem_count ∧ (s.read buf).memcmp 0 [0x52, 0x54, 0x53, 0x50, 0x2f] = true) ↔
      rtsp_line (s.read buf).next.line = true := by
  have hlength : (s.read buf).next.line.length = s.mem_count + 1 := (s.read buf).next.length_line
  rw [rtsp_line, List.isPrefixOf_iff_prefix]
  by_cases hfive : 5 ≤ s.mem_count
  · have hlen : [(0x52 : UInt8), 0x54, 0x53, 0x50, 0x2f].length ≤ (s.read buf).next.mem_count := Nat.le_succ_of_le hfive
    exact (and_iff_right hfive).trans (Reader.memcmp_start_iff hlen)
  · refine iff_of_false (fun hboth => hfive hboth.1) fun hstarts => ?_
    have hfull : [0x52, 0x54, 0x53, 0x50, 0x2f] = (s.read buf).next.line := by
      refine hstarts.eq_of_length_le ?_
      rw [hlength]
      change s.mem_count + 1 ≤ 5
      omega
    rw [← hfull] at hends
    exact absurd hends (by decide)

theorem rtsp_body_eq : rtsp_body buf s = line_body 9 rtsp_line buf s := by
  rw [rtsp_body, line_body]
  by_cases hends : [0x0D, 0x0A] <:+ (s.read buf).next.line
  · rw [if_pos (ends_line_read.mpr hends), if_pos hends]
    simp only [starts_rtsp_iff hends]
  · rw [if_neg hends, if_neg fun h => hends (ends_line_read.mp h)]

variable {offset : Nat} {selected : List UInt8 → Bool} {mem : Nat → UInt8}

/-- The memory once a byte was read. -/
theorem mem_read_eq (hmem : ∀ i, s.mem_count ≤ i → s.mem i = mem i) (i : Nat) :
    (s.read buf).mem i = overwrite mem (s.read buf).next.line i := by
  have hlength : (s.read buf).next.line.length = s.mem_count + 1 := (s.read buf).next.length_line
  by_cases hin : i < s.mem_count + 1
  · rw [overwrite, List.getElem?_eq_getElem (hlength ▸ hin)]
    have heq : (s.read buf).next.mem i = (s.read buf).next.line[i]?.getD 0 := Reader.mem_eq_getD hin
    rw [List.getElem?_eq_getElem (hlength ▸ hin)] at heq
    exact heq
  · have hold : (s.read buf).mem i = s.mem i := Function.update_of_ne (by omega) ..
    have hout : (s.read buf).next.line.length ≤ i := by omega
    rw [overwrite, List.getElem?_eq_none hout, hold, hmem i (by omega)]
    rfl

/-- The code that is read comes from the memory under the line, once the line was written over
it. -/
theorem message_code_read (hmem : ∀ i, s.mem_count ≤ i → s.mem i = mem i) : (s.read buf).message_code offset =
    code_of ((List.range' offset 3).map (overwrite mem (s.read buf).next.line)) := by
  rw [← funext (mem_read_eq hmem)]
  rfl

/-- A state within a line, which has not ended so far. Behind the bytes of the line that were
read, `s.mem` is what earlier lines left, which is `mem`. -/
structure InLine (mem : Nat → UInt8) (s : Scan) : Prop where
  unended : ¬ [0x0D, 0x0A] <:+: s.line
  behind : ∀ i, s.mem_count ≤ i → s.mem i = mem i

/-- The codes of the line that is being read and of the lines after it. -/
def codes_to_come (offset : Nat) (selected : List UInt8 → Bool) (text : List UInt8) (mem : Nat → UInt8) (s : Scan) : List UInt32 :=
  codes_found offset selected mem (crlf_lines (s.line ++ text.drop s.byte_count))

variable {buf_size : Nat}

/-- At the beginning of a line the memory is that of the lines before. -/
theorem InLine.of_empty (hcount : s.mem_count = 0) (hmem : ∀ i, s.mem i = mem i) : InLine mem s := by
  refine ⟨?_, fun i _ => hmem i⟩
  simp [Reader.line, hcount]

theorem drop_take_of_lt (hin : s.byte_count < buf_size) (hsize : buf_size ≤ buf.length) :
    (buf.take buf_size).drop s.byte_count = buf[s.byte_count]?.getD 0 :: (buf.take buf_size).drop (s.byte_count + 1) := by
  have hlength : s.byte_count < (buf.take buf_size).length := by
    rw [List.length_take]
    omega
  rw [List.drop_eq_getElem_cons hlength, List.getElem_take, List.getElem?_eq_getElem (by omega)]
  rfl

/-- A byte that does not end the line. -/
theorem InLine.next (h : InLine mem s) (hin : s.byte_count < buf_size) (hsize : buf_size ≤ buf.length)
    (hends : ¬ [0x0D, 0x0A] <:+ (s.read buf).next.line) : InLine mem (s.read buf).next ∧
      codes_to_come offset selected (buf.take buf_size) mem (s.read buf).next = codes_to_come offset selected (buf.take buf_size) mem s := by
  have hline : (s.read buf).next.line = s.line ++ [buf[s.byte_count]?.getD 0] := s.toReader.line_next_read buf
  refine ⟨⟨?_, fun i hi => ?_⟩, ?_⟩
  · rw [hline, List.infix_concat_iff, ← hline]
    exact fun hwithin => hwithin.elim hends h.unended
  · exact (Function.update_of_ne (Nat.ne_of_gt hi) ..).trans (h.behind i (Nat.le_of_succ_le hi))
  · rw [codes_to_come, codes_to_come, hline, drop_take_of_lt hin hsize, List.append_assoc]
    rfl

variable (offset selected) in
/-- A byte that ends the line. The next line begins in the memory that this one leaves. -/
theorem InLine.ended (h : InLine mem s) (hin : s.byte_count < buf_size) (hsize : buf_size ≤ buf.length)
    (hends : [0x0D, 0x0A] <:+ (s.read buf).next.line) : ∃ mem', (∀ i, (s.read buf).mem i = mem' i) ∧
      codes_to_come offset selected (buf.take buf_size) mem s = if selected (s.read buf).next.line then
        if (s.read buf).message_code offset = 0 then []
        else (s.read buf).message_code offset :: codes_to_come offset selected (buf.take buf_size) mem' (s.read buf).reset
      else codes_to_come offset selected (buf.take buf_size) mem' (s.read buf).reset := by
  have hline : (s.read buf).next.line = s.line ++ [buf[s.byte_count]?.getD 0] := s.toReader.line_next_read buf
  refine ⟨_, mem_read_eq h.behind, ?_⟩
  rw [message_code_read h.behind, codes_to_come, drop_take_of_lt hin hsize, crlf_lines_of_ends h.unended (hline ▸ hends), ← hline]
  rfl

/-- What a round makes of the codes to come. -/
theorem InLine.step (h : InLine mem s) (hin : s.byte_count < buf_size) (hsize : buf_size ≤ buf.length) :
    (∃ t, line_body offset selected buf s = .done t ∧
      t.state_sequence = s.state_sequence ++ codes_to_come offset selected (buf.take buf_size) mem s) ∨
    (∃ t mem', line_body offset selected buf s = .yield t ∧ t.byte_count = s.byte_count + 1 ∧ InLine mem' t ∧
      t.state_sequence ++ codes_to_come offset selected (buf.take buf_size) mem' t =
        s.state_sequence ++ codes_to_come offset selected (buf.take buf_size) mem s) := by
  rw [line_body]
  by_cases hends : [0x0D, 0x0A] <:+ (s.read buf).next.line
  · rw [if_pos hends]
    obtain ⟨mem', hmem, hcodes⟩ := h.ended offset selected hin hsize hends
    rw [hcodes]
    split
    · split
      · exact Or.inl ⟨_, rfl, (List.append_nil _).symm⟩
      · refine Or.inr ⟨_, mem', rfl, rfl, InLine.of_empty rfl hmem, ?_⟩
        exact List.append_assoc s.state_sequence [_] _
    · exact Or.inr ⟨_, mem', rfl, rfl, InLine.of_empty rfl hmem, rfl⟩
  · obtain ⟨hnext, hsame⟩ := h.next hin hsize hends
    rw [if_neg hends]
    exact Or.inr ⟨_, mem, rfl, rfl, hnext, congrArg (s.state_sequence ++ ·) hsame⟩

/-- The rounds up to the end of the buffer find the codes to come. -/
theorem InLine.exit {loop : Loop Scan} (hmore : ∀ s, loop.more s = decide (s.byte_count < buf_size))
    (hbody : ∀ s, loop.body s = line_body offset selected buf s) (h : InLine mem s) (hsize : buf_size ≤ buf.length) :
    (loop.exit s).state_sequence = s.state_sequence ++ codes_to_come offset selected (buf.take buf_size) mem s := by
  induction hleft : buf_size - s.byte_count generalizing s mem with
  | zero =>
    have hall : (buf.take buf_size).drop s.byte_count = [] := List.drop_eq_nil_of_le (by rw [List.length_take]; omega)
    rw [Loop.exit_of_stop ((hmore s).trans (decide_eq_false (by omega))), codes_to_come, hall, List.append_nil,
      crlf_lines_of_open h.unended]
    exact (List.append_nil _).symm
  | succ left ih =>
    have hround : loop.more s = true := (hmore s).trans (decide_eq_true (by omega))
    rcases h.step (by omega) hsize with ⟨t, hdone, hcodes⟩ | ⟨t, mem', hyield, hcount, ht, hcodes⟩
    · rw [Loop.exit_of_break hround ((hbody s).trans hdone), hcodes]
    · rw [Loop.exit_of_yield hround ((hbody s).trans hyield), ih ht (by omega), hcodes]

end line_body

section response_codes

variable {buf : List UInt8} {buf_size : Nat}

/-- The extractors of SMTP, FTP and RTSP find the codes of the lines themselves if and only if
nothing that earlier lines left behind a short line makes a code. All three copy fixed bytes of
a line, however short it is. -/
theorem line_codes_iff (hsize : buf_size ≤ buf.length) :
    (extract_response_codes_smtp buf buf_size = 0 :: line_codes 0 every_line (crlf_lines (buf.take buf_size)) ↔
      NoCodeBehind 0 every_line (fun _ => 0) (crlf_lines (buf.take buf_size))) ∧
    (extract_response_codes_ftp buf buf_size = 0 :: line_codes 0 every_line (crlf_lines (buf.take buf_size)) ↔
      NoCodeBehind 0 every_line (fun _ => 0) (crlf_lines (buf.take buf_size))) ∧
    (extract_response_codes_rtsp buf buf_size = 0 :: line_codes 9 rtsp_line (crlf_lines (buf.take buf_size)) ↔
      NoCodeBehind 9 rtsp_line (fun _ => 0) (crlf_lines (buf.take buf_size))) := by
  have hempty : InLine (fun _ => 0) Scan.start := InLine.of_empty rfl fun _ => rfl
  have hstatus : extract_response_codes_smtp buf buf_size = 0 :: codes_found 0 every_line (fun _ => 0) (crlf_lines (buf.take buf_size)) :=
    hempty.exit (fun _ => rfl) (fun _ => status_line_body_eq) hsize
  have hrtsp : extract_response_codes_rtsp buf buf_size = 0 :: codes_found 9 rtsp_line (fun _ => 0) (crlf_lines (buf.take buf_size)) :=
    hempty.exit (fun _ => rfl) (fun _ => rtsp_body_eq) hsize
  have hends : ∀ line ∈ crlf_lines (buf.take buf_size), [0x0D, 0x0A] <:+ line := fun _ => ends_of_mem_crlf_lines
  have hiff : extract_response_codes_smtp buf buf_size = 0 :: line_codes 0 every_line (crlf_lines (buf.take buf_size)) ↔
      NoCodeBehind 0 every_line (fun _ => 0) (crlf_lines (buf.take buf_size)) := by
    rw [hstatus, List.cons_inj_right, codes_found_eq_iff hends]
  refine ⟨hiff, hiff, ?_⟩
  rw [hrtsp, List.cons_inj_right, codes_found_eq_iff hends]

/-- A response whose other lines are short. -/
theorem rtsp_line_has_a_code : extract_response_codes_rtsp
    [82, 84, 83, 80, 47, 49, 46, 48, 32, 50, 48, 48, 13, 10, 67, 13, 10, 13, 10] 19 = [0, 200] :=
  ((@line_codes_iff [82, 84, 83, 80, 47, 49, 46, 48, 32, 50, 48, 48, 13, 10, 67, 13, 10, 13, 10] 19 (by decide)).2.2.mpr
    (noCodeBehind_of_long (by decide))).trans (by decide)

/-- The code of an empty line is the third digit of the line before. -/
theorem empty_line_has_two_codes : ¬ ∃ code : List UInt8 → UInt32, ∀ buf, extract_response_codes_smtp buf buf.length =
    0 :: ((crlf_lines buf).map code).takeWhile (· ≠ 0) := by
  rintro ⟨code, h⟩
  have hempty : ∀ first c d, [0, c, d] = 0 :: [code first, code [13, 10]].takeWhile (· ≠ 0) → code [13, 10] = d := by
    intro first c d heq
    have htake := (List.cons_inj_right 0).mp heq
    have hall := (@List.takeWhile_prefix _ [code first, code [13, 10]] (· ≠ 0)).eq_of_length (by rw [← htake]; rfl)
    rw [hall] at htake
    cases htake
    rfl
  have hthree : extract_response_codes_smtp [49, 50, 51, 13, 10, 13, 10] 7 = [0, 123, 3] := by decide
  have hfour : extract_response_codes_smtp [49, 50, 52, 13, 10, 13, 10] 7 = [0, 124, 4] := by decide
  have hthree' := hempty _ _ _ (hthree.symm.trans (h [49, 50, 51, 13, 10, 13, 10]))
  have hfour' := hempty _ _ _ (hfour.symm.trans (h [49, 50, 52, 13, 10, 13, 10]))
  exact absurd (hthree'.symm.trans hfour') (by decide)

end response_codes

end aflnet
