import AflnetLegion.Lib.Lines
import AflnetLegion.Protocol.Pieces

open Lines

namespace aflnet

/-- The loop has cut the bytes read so far into `lines` and an open line, and its counters agree
with that. Nothing is said about the end of the buffer. -/
structure Cut (terminator buf : List UInt8) (lines : List (List UInt8)) (s : Split) : Prop where
  text : lines.flatten ++ s.line = buf.take s.byte_count
  ended : ∀ line ∈ lines, IsLine terminator line
  unended : Open terminator s.line
  cur_start : s.cur_start = lines.flatten.length
  cur_end : s.cur_end = s.byte_count
  regions : s.regions = consecutive_regions 0 lines

/-- What the loop has cut at its head. Only a line that has just ended can leave the
last byte to be read. -/
structure AtHead (terminator buf : List UInt8) (buf_size : Nat) (lines : List (List UInt8)) (s : Split) : Prop extends
    Cut terminator buf lines s where
  within : s.byte_count ≤ buf_size
  one_left : s.byte_count + 1 = buf_size → s.line = []
  none_left : s.byte_count = buf_size → lines.flatten = buf.take (buf_size - 1)

section request_body

variable {terminator buf : List UInt8} {buf_size : Nat} {lines : List (List UInt8)} {s : Split}

/-- The comparison decides whether the open line ends with the byte just read. -/
theorem ends_request_iff (hterminator : terminator ≠ []) (s : Split) (buf : List UInt8) :
    (s.read buf).ends_request terminator = true ↔
      terminator.length < (s.line ++ [buf[s.byte_count]?.getD 0]).length ∧
        terminator <:+ s.line ++ [buf[s.byte_count]?.getD 0] := by
  have hpos := List.length_pos_iff.mpr hterminator
  rw [← s.toReader.line_next_read buf, Reader.length_line]
  change (decide (terminator.length - 1 < s.mem_count) && _) = true ↔ terminator.length < s.mem_count + 1 ∧ _
  rw [Bool.and_eq_true, decide_eq_true_iff]
  constructor
  · rintro ⟨hlong, hmem⟩
    refine ⟨by omega, (Reader.memcmp_iff (r := (s.toReader.read buf).next) ?_).mp ?_⟩
    · change terminator.length ≤ s.mem_count + 1
      omega
    · change (s.toReader.read buf).memcmp (s.mem_count + 1 - terminator.length) terminator = true
      rw [show s.mem_count + 1 - terminator.length = s.mem_count - (terminator.length - 1) by omega]
      exact hmem
  · rintro ⟨hlong, hends⟩
    refine ⟨by omega, ?_⟩
    have hmem := (Reader.memcmp_iff (r := (s.toReader.read buf).next) (show terminator.length ≤ s.mem_count + 1 by
      omega)).mpr hends
    change (s.toReader.read buf).memcmp (s.mem_count + 1 - terminator.length) terminator = true at hmem
    rw [show s.mem_count + 1 - terminator.length = s.mem_count - (terminator.length - 1) by omega] at hmem
    exact hmem

theorem at_head_start (hpos : 0 < buf_size) : AtHead terminator buf buf_size [] .start where
  text := rfl
  ended := fun _ hfalse => by cases hfalse
  unended := open_nil
  cur_start := rfl
  cur_end := rfl
  regions := rfl
  within := Nat.zero_le _
  one_left := fun _ => rfl
  none_left := fun hzero => absurd hzero (Nat.ne_of_lt hpos)

/-- What the loop has cut, without what is known about the lines. -/
theorem Cut.cutInto (h : Cut terminator buf lines s) : CutInto buf lines s := ⟨h.text, h.cur_start, h.cur_end, h.regions⟩

/-- A line that ends is cut off, and the next one begins behind it. -/
theorem AtHead.end_request (h : AtHead terminator buf buf_size lines s) (hterminator : terminator ≠ [])
    (hin : s.byte_count < buf_size) (hsize : buf_size ≤ buf.length)
    (hends : (s.read buf).ends_request terminator = true) :
    AtHead terminator buf buf_size (lines ++ [s.line ++ [buf[s.byte_count]?.getD 0]]) (s.read buf).end_request := by
  have hpos := List.length_pos_iff.mpr hterminator
  obtain ⟨hlong, hsuffix⟩ := (ends_request_iff hterminator s buf).mp hends
  have htext := h.cutInto.text_read (Nat.lt_of_lt_of_le hin hsize)
  have hcut := h.cutInto.end_request (t := s.read buf) htext (Nat.le_trans hin hsize) rfl (congrArg (· + 1) h.cur_end) rfl
  refine ⟨⟨hcut.text, List.forall_mem_append.mpr ⟨h.ended, List.forall_mem_singleton.mpr (h.unended.isLine hlong hsuffix)⟩,
    open_nil, hcut.cur_start, hcut.cur_end, hcut.regions⟩, hin, fun _ => rfl, fun hlast => ?_⟩
  -- the last byte alone is too short for a line
  rw [h.one_left hlast, List.nil_append, List.length_singleton] at hlong
  omega

theorem AtHead.next (h : AtHead terminator buf buf_size lines s) (hterminator : terminator ≠ [])
    (hin : s.byte_count < buf_size) (hsize : buf_size ≤ buf.length)
    (hends : ¬ (s.read buf).ends_request terminator = true) (hlast : s.cur_end + 1 ≠ buf_size - 1) :
    AtHead terminator buf buf_size lines (s.read buf).next := by
  have hcut := h.cutInto.next_read (Nat.lt_of_lt_of_le hin hsize)
  rw [h.cur_end] at hlast
  refine ⟨⟨hcut.text, h.ended, ?_, hcut.cur_start, hcut.cur_end, hcut.regions⟩, hin, fun hone => ?_, fun hnone => ?_⟩
  · rw [show (s.read buf).next.line = s.line ++ [buf[s.byte_count]?.getD 0] from s.toReader.line_next_read buf]
    exact h.unended.concat fun hboth => hends ((ends_request_iff hterminator s buf).mpr hboth)
  · change s.byte_count + 1 + 1 = buf_size at hone
    omega
  · change s.byte_count + 1 = buf_size at hnone
    rw [← hnone, Nat.add_sub_cancel, ← h.text, h.one_left hnone, List.append_nil]

/-- What the loop found, in terms of the buffer without its last byte: its lines, and
one more request from the end of the last line on, if that is not where it ends. -/
def Found (terminator buf : List UInt8) (buf_size : Nat) (regions : List region_t) : Prop :=
  ∃ lines current, lines.flatten ++ current = buf.take (buf_size - 1) ∧ (∀ line ∈ lines, IsLine terminator line) ∧
    Open terminator current ∧
    regions = consecutive_regions 0 lines ++ if current = [] then [] else [.fresh lines.flatten.length (buf_size - 1 : Nat)]

/-- What the loop finds in any buffer that is not empty. -/
theorem request_loop_exit (hterminator : terminator ≠ []) (hpos : 0 < buf_size) (hsize : buf_size ≤ buf.length) :
    Found terminator buf buf_size ((request_loop terminator buf buf_size).exit .start).regions := by
  refine Loop.exit_rule (I := fun s => ∃ lines, AtHead terminator buf buf_size lines s)
    (Q := fun s => Found terminator buf buf_size s.regions) ⟨[], at_head_start hpos⟩ ?_ ?_ ?_
  · rintro s ⟨lines, h⟩ hstop
    have hout : ¬ s.byte_count < buf_size := of_decide_eq_false hstop
    have hall := h.none_left (Nat.le_antisymm h.within (Nat.not_lt.mp hout))
    refine ⟨lines, [], by rw [List.append_nil, hall], h.ended, open_nil, ?_⟩
    rw [h.regions, if_pos rfl, List.append_nil]
  · rintro s t ⟨lines, h⟩ hmore hbody
    have hin : s.byte_count < buf_size := of_decide_eq_true hmore
    change request_body terminator buf buf_size s = _ at hbody
    rw [request_body] at hbody
    dsimp only at hbody
    split at hbody
    · cases hbody
    · rename_i hends
      split at hbody
      · rename_i hlast
        cases hbody
        have hbytes : s.byte_count + 1 = buf_size - 1 := h.cur_end ▸ hlast
        refine ⟨lines, s.line ++ [buf[s.byte_count]?.getD 0], ?_, h.ended, ?_, ?_⟩
        · rw [← hbytes]
          exact h.cutInto.text_read (Nat.lt_of_lt_of_le hin hsize)
        · exact h.unended.concat fun hboth => hends ((ends_request_iff hterminator s buf).mpr hboth)
        · rw [if_neg (List.append_ne_nil_of_right_ne_nil _ (List.cons_ne_nil _ _)), ← h.regions, ← hbytes, ← h.cur_start,
            ← h.cur_end]
          rfl
      · cases hbody
  · rintro s t ⟨lines, h⟩ hmore hbody
    have hin : s.byte_count < buf_size := of_decide_eq_true hmore
    change request_body terminator buf buf_size s = _ at hbody
    rw [request_body] at hbody
    dsimp only at hbody
    split at hbody
    · rename_i hends
      cases hbody
      exact ⟨_, h.end_request hterminator hin hsize hends⟩
    · rename_i hends
      split at hbody
      · cases hbody
      · rename_i hlast
        cases hbody
        exact ⟨lines, h.next hterminator hin hsize hends hlast⟩

/-- The regions of the text protocols. If the buffer without its last byte consists of
complete lines, the last byte is in no region. -/
theorem covers_extract_requests_by_iff (hterminator : terminator ≠ []) (hpos : 0 < buf_size)
    (hsize : buf_size ≤ buf.length) : Covers (extract_requests_by terminator buf buf_size) buf_size ↔
      ¬ Complete terminator (buf.take (buf_size - 1)) := by
  obtain ⟨lines, current, htext, hended, hopen, hregions⟩ := request_loop_exit hterminator hpos hsize
  have hne : ∀ line ∈ lines, line ≠ [] := fun line hline => (hended line hline).ne_nil
  have hlength : lines.flatten.length + current.length = buf_size - 1 := by
    rw [← List.length_append, htext, List.length_take]
    omega
  rw [← htext, complete_iff hended hopen]
  change Covers (regions_or_whole _ buf_size) buf_size ↔ _
  rw [hregions]
  by_cases hcurrent : current = []
  · rw [if_pos hcurrent, List.append_nil]
    subst hcurrent
    rw [List.length_nil, Nat.add_zero] at hlength
    by_cases hnil : lines = []
    · subst hnil
      have hone : buf_size = 1 := by
        rw [List.flatten_nil, List.length_nil] at hlength
        omega
      subst hone
      exact iff_of_true covers_whole fun hboth => hboth.1 rfl
    · exact iff_of_false (not_covers_of_pieces hne hnil (by omega)) fun hnot => hnot ⟨hnil, rfl⟩
  · rw [if_neg hcurrent]
    -- the last request has one more byte than was read of it
    have hlast : (current ++ [0]).length = current.length + 1 := List.length_append
    have hsnoc : consecutive_regions 0 lines ++ [.fresh lines.flatten.length (buf_size - 1 : Nat)] =
      consecutive_regions 0 (lines ++ [current ++ [0]]) := consecutive_regions_snoc (by omega)
    rw [hsnoc]
    refine iff_of_true (covers_of_pieces ?_ ?_ hpos) fun hboth => hcurrent hboth.2
    · exact List.forall_mem_append.mpr ⟨hne, List.forall_mem_singleton.mpr (List.append_ne_nil_of_left_ne_nil hcurrent _)⟩
    · rw [List.flatten_append, List.flatten_singleton, List.length_append]
      omega

end request_body

/-- Every byte of a buffer is in one of the regions, unless the buffer without its last byte
consists of complete requests: the position is advanced before it is compared with the last one,
so a single byte behind a request is lost. -/
theorem text_protocol.covers_extract_requests_iff (p : text_protocol) {buf : List UInt8} {buf_size : Nat}
    (hpos : 0 < buf_size) (hsize : buf_size ≤ buf.length) : Covers (p.extract_requests buf buf_size) buf_size ↔
      ¬ Complete p.terminator (buf.take (buf_size - 1)) := by
  cases p <;> exact covers_extract_requests_by_iff (List.cons_ne_nil _ _) hpos hsize

/-- A buffer of two requests, the second of which ends with it. -/
theorem two_requests_are_covered : Covers (extract_requests_smtp [65, 13, 10, 66, 13, 10] 6) 6 := by
  refine (@text_protocol.covers_extract_requests_iff .smtp [65, 13, 10, 66, 13, 10] 6 (by decide) (by decide)).mpr fun hcomplete => ?_
  have hline : ∀ line ∈ [[(65 : UInt8), 13, 10]], Lines.IsLine [13, 10] line := by
    intro line hmem
    rw [List.mem_singleton.mp hmem]
    exact ⟨by decide, ⟨[65], rfl⟩, Lines.open_of_short (by decide)⟩
  have hrest := (Lines.complete_iff hline (Lines.open_of_short (by decide : [(66 : UInt8), 13].length ≤ 2))).mp hcomplete
  cases hrest.2

/-- One byte after a request is lost. -/
theorem byte_after_request_is_lost : extract_requests_smtp [65, 13, 10, 66] 4 = [.fresh 0 2] ∧
    ¬ Covers (extract_requests_smtp [65, 13, 10, 66] 4) 4 := by
  have heq : extract_requests_smtp [65, 13, 10, 66] 4 = [.fresh 0 2] := by decide
  refine ⟨heq, fun hcovers => ?_⟩
  have hstop := hcovers.tiles.stop_eq
  rw [heq] at hstop
  exact absurd hstop (by decide)

end aflnet
